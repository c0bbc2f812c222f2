import FastMap.Capacity
import FastMap.Requests

/-!
# Reading and writing beside a mapping

`wrapfs_read` and `wrapfs_write` on a regular file that is mapped. Positions count bytes, so pages
are frames of bytes here, and a lower file has a size in bytes.

A write goes to the lower file and leaves a cached page as it is. A read takes a cached page into
account only if its range ends before the end of the page it starts in, and then it adds the
position in the file, not the position in the page, to the address of the frame. Reads return what
was last written or stored as long as nobody gets to see the difference: writes meet no cached
page, reads of one cached page are reads of page 0, and other reads meet no dirty page.
-/

namespace FastMap

variable {C : Type*}

/-- The bytes of a page frame. -/
abbrev PageBytes := Fin pageSize → UInt8

/-- The place of a byte of a file in its page. -/
def inPage (x : ℕ) : Fin pageSize := ⟨x % pageSize, Nat.mod_lt _ (by decide)⟩

/-- The buffer, and the `i_size` of the lower files. -/
structure Mount where
  st : State PageBytes
  iSize : DevId → ℕ

namespace Mount

/-! ### The lower files -/

/-- A byte of a lower file. -/
def byte (m : Mount) (d : DevId) (x : ℕ) : UInt8 := m.st.disk (d, x / pageSize) (inPage x)

/-- New sizes of the lower files. -/
def resize (m : Mount) (size : DevId → ℕ) : Mount where
  st := { m.st with
    devPages := fun d => if size d = m.iSize d then m.st.devPages d else size d / pageSize }
  iSize := size

/-- `vfs_read` on a lower file: the bytes, and the position after them. -/
def vfsRead (m : Mount) (d : DevId) (pos count : ℕ) : List UInt8 × ℕ :=
  let n := min count (m.iSize d - pos)
  ((List.range n).map fun k => m.byte d (pos + k), pos + n)

/-- A lower file with `buf` at `pos`; a gap before it is filled with zeros. -/
def overwrite (m : Mount) (d : DevId) (pos : ℕ) (buf : List UInt8) (a : DevId × Pgoff) :
    PageBytes :=
  fun o =>
    let x := a.2 * pageSize + o
    let old := if m.iSize d ≤ x then 0 else m.st.disk a o
    if a.1 ≠ d then m.st.disk a o
    else if x < pos then old
    else (buf[x - pos]?).getD (m.st.disk a o)

/-- `vfs_write` on a lower file. -/
def vfsWrite (m : Mount) (d : DevId) (pos : ℕ) (buf : List UInt8) : Mount :=
  if buf = [] then m
  else
    resize { m with st := { m.st with disk := m.overwrite d pos buf } }
      (Function.update m.iSize d (max (m.iSize d) (pos + buf.length)))

/-! ### `wrapfs_read` and `wrapfs_write` -/

/-- The byte at `page_to_virt(page) + x`; past the end of the frame lies other memory. -/
def virt (m : Mount) (p : PageId) (beyond : ℕ → UInt8) (x : ℕ) : UInt8 :=
  if h : x < pageSize then (m.st.pages p).content ⟨x, h⟩ else beyond x

/-- `wrapfs_read` on a file with its pvd and its lower file: the bytes copied to the user, and
`*ppos` after the call. -/
def wrapfsRead (e : Env PageBytes) (m : Mount) (pvd : Option PvdId) (lower : DevId) (pos count : ℕ)
    (beyond : ℕ → UInt8) : List UInt8 × ℕ :=
  match pvd with
  | none => m.vfsRead lower pos count
  | some v =>
    if (m.st.pvds v).mmaped = true ∧ pos / pageSize = (pos + count) / pageSize then
      match m.st.fmapRadixLookup e v (pos / pageSize) with
      | some p => ((List.range count).map fun k => m.virt p beyond (pos + k), pos)
      | none => m.vfsRead lower pos count
    -- cached pages in a longer range are only reported
    else m.vfsRead lower pos count

/-- `wrapfs_write`; cached pages are only reported. -/
def wrapfsWrite (m : Mount) (lower : DevId) (pos : ℕ) (buf : List UInt8) : Mount :=
  m.vfsWrite lower pos buf

end Mount

/-! ### Accesses -/

/-- What happens to a file that is mapped. -/
inductive Access where
  /-- A fault, or a call that works in the background. -/
  | call (op : Op PageBytes)
  /-- A store of a byte through a mapping. -/
  | store (vma : VmaId) (i : ℕ) (o : Fin pageSize) (b : UInt8)
  | read (v : PvdId) (pos count : ℕ)
  | write (v : PvdId) (pos : ℕ) (buf : List UInt8)

namespace State

/-- The batches that a call hands to the writer. -/
def opBatches (e : Env C) (s : State C) : Op C → List (List PageId)
  | .evictor id held => [s.evictorBatchHeld e id held]
  | .writeDirty cb v => s.syncBatches e cb v
  | .rawRelease v => s.syncBatches e .release v
  | _ => []

variable {e : Env C} {s s' : State C} {p : PageId} {v : PvdId} {off : Pgoff}

/-- Reclaim leaves dirty pages alone. -/
lemma Recycles.pages_of_dirty (hr : Recycles e s s') (hd : (s.pages p).isDirty = true) :
    s'.pages p = s.pages p := by
  rcases hr.view_cases p with hp | hp
  · exact congrArg PageView.page hp
  · rcases hp.before with hidle | hpurge
    · exact absurd (hidle.isDirty.symm.trans hd) Bool.false_ne_true
    · exact absurd (hpurge.2.1.symm.trans hd) Bool.false_ne_true

/-- A page that is dirty and caches a block. -/
def DirtyFor (t : TaggedPage C) (v : PvdId) (off : Pgoff) : Prop :=
  t.Caches v off ∧ t.isDirty = true

/-- Faults leave them alone as well. -/
lemma Faulted.dirtyFor {s₀ : State C} {vmf : VmFault} {f : FaultEnv C} {v' : PvdId} {q : PageId}
    {x y : PageView C} (h : s.Inv e) (hf : Faulted e s s₀ s' vmf f v' q x y)
    (hd : DirtyFor (s.pages p) v off) : DirtyFor (s'.pages p) v off := by
  rw [← hf.recycles.pages_of_dirty hd.2] at hd
  have hne : ¬ Idle (s₀.view e p) := fun hidle => Bool.false_ne_true (hidle.isDirty.symm.trans hd.2)
  by_cases hp : p = q
  · subst hp
    rw [← view_page e, hf.resolves.view_self, hf.mapped.same]
    rcases hf.found with ⟨-, -, -, -, rfl⟩ | ⟨hfree, -⟩
    · exact hd
    · exact absurd (Idle.of_free ((hf.recycles.inv h).page p) hfree) hne
  · rcases hf.resolves.other hp with hv | ⟨hidle, -⟩
    · rw [← view_page e, hv]
      exact hd
    · exact absurd hidle hne

/-- A page stays dirty unless it is in a batch. -/
lemma Quiet.dirtyFor_or_mem (h : s.Quiet e) {op : Op C} (hm : Mild op) (hi : s.issued e op = true)
    (hs : s.exec e op = .ok s') (hd : DirtyFor (s.pages p) v off) :
    DirtyFor (s'.pages p) v off ∨ ∃ b ∈ s.opBatches e op, p ∈ b := by
  cases op with
  | fault vma i f =>
    obtain ⟨s₀, v', q, x, y, hf⟩ := h.inv.fault hs
    exact Or.inl (hf.dirtyFor h.inv hd)
  | mkwrite vma i =>
    left
    rcases h.inv.mkwrite hi hs with rfl | ⟨q, v', w, -, -, -, -, -, -, -, hq⟩
    · exact hd
    · by_cases hp : p = q
      · rw [hp] at hd ⊢
        rw [hq.pages_self]
        exact ⟨hd.1, rfl⟩
      · rw [← view_page e, hq.view_of_ne hp]
        exact hd
  | store vma i f =>
    left
    obtain ⟨q, -, -, hq⟩ := h.placed.store hs
    by_cases hp : p = q
    · rw [hp] at hd ⊢
      rw [hq.pages_self]
      exact hd
    · rw [← view_page e, hq.view_of_ne hp]
      exact hd
  | evictor id held =>
    obtain rfl : s.evictorRoundHeld e id held = s' := by simpa [exec] using hs
    obtain ⟨v', hb, -⟩ := h.evictorRoundHeld id held
    by_cases hp : p ∈ s.evictorBatchHeld e id held
    · exact Or.inr ⟨_, List.mem_singleton_self _, hp⟩
    · left
      rw [hb.pages_of_not_mem hp]
      exact hd
  | writeDirty cb v' =>
    have hl := h.inv.writeDirtyPages hs
    by_cases hp : p ∈ (s.syncBatches e cb v').flatten
    · exact Or.inr (List.mem_flatten.mp hp)
    · left
      rw [hl.batch.pages_of_not_mem hp]
      exact hd
  | purge qid =>
    obtain rfl : s.tryPurgePagesFast e qid = s' := by simpa [exec] using hs
    left
    rw [(h.inv.recycles_tryPurgePagesFast qid).pages_of_dirty hd.2]
    exact hd
  | rawRelease v' => exact absurd hm not_false

/-- A block whose page is dirty. -/
lemma Inv.line_dirty_iff (h : s.Inv e) : (∃ c, (s.line e v off).cached = some (c, true)) ↔
    ∃ p, DirtyFor (s.pages p) v off := by
  constructor
  · rintro ⟨c, hc⟩
    obtain ⟨p, hp, heq⟩ := Option.map_eq_some_iff.mp hc
    exact ⟨p, h.lookup_iff.mp hp, (Prod.mk.inj heq).2⟩
  · rintro ⟨p, hp, hd⟩
    rw [h.line_cached hp, hd]
    exact ⟨_, rfl⟩

/-- The driver's writer writes batches without long runs in full. -/
lemma writesOp_of_shortRuns (he : e.writeAsync = driverWriter) {op : Op C}
    (hr : ShortRuns s (s.opBatches e op)) : WritesOp e s op := by
  cases op with
  | evictor id held =>
    exact fun v => writesBatch_of_not_longRun he v (hr _ (List.mem_singleton_self _))
  | writeDirty cb v => exact fun b hb => writesBatch_of_not_longRun he v (hr b hb)
  | _ => exact trivial

/-- Changes of the devices alone. -/
lemma Steady.of_keeps {w : World C} (h : Steady e w s) (hk : Keeps e s s') (hp : s'.pvds = s.pvds)
    (hv : s'.vmas = s.vmas) (hi : s'.infos = s.infos) : Steady e w s' where
  quiet := by
    refine ⟨hk.placed, fun p => ?_⟩
    rw [hk.view_eq]
    exact h.quiet.page p
  tracks := h.tracks.of_view hk.view_eq
  pvds := hp.trans h.pvds
  vmas := hv.trans h.vmas
  infos := hi.trans h.infos

end State

namespace Mount

open State

/-- The end of a page in a lower file, if the page belongs to it. -/
def pageEnd (m : Mount) (d : DevId) (p : PageId) : ℕ :=
  match (m.st.pages p).pvd with
  | none => 0
  | some v =>
    if (m.st.pvds v).type = .file ∧ (m.st.pvds v).bk = d then
      ((m.st.pages p).index + 1) * pageSize
    else 0

/-- The size of a lower file after batches of pages have been written. -/
def grown (m : Mount) (bs : List (List PageId)) (d : DevId) : ℕ :=
  max (m.iSize d) ((bs.flatMap m.st.requests).flatten.toFinset.sup (m.pageEnd d))

def exec (e : Env PageBytes) (m : Mount) : Access → Except Halt Mount
  | .call op => (m.st.exec e op).map fun st => resize ⟨st, m.iSize⟩ (m.grown (m.st.opBatches e op))
  | .store vma i o b =>
    (m.st.store vma i fun c => Function.update c o b).map fun st => ⟨st, m.iSize⟩
  | .read _ _ _ => .ok m
  | .write v pos buf => .ok (m.wrapfsWrite (m.st.pvds v).bk pos buf)

/-- A read of page `off` of a lower file gets the bytes that the file has there. -/
def ReadsFile (m : Mount) (d : DevId) (off : Pgoff) (r : ReadResult PageBytes) : Prop :=
  ∀ back frame (o : Fin pageSize), off * pageSize + o < m.iSize d → r.content back frame o = back o

/-- The accesses under consideration; the lower file system works correctly. -/
def Expected (m : Mount) : Access → Prop
  | .call (.fault vma i f) => ∀ v, m.st.vmaPvd vma = some v → (m.st.pvds v).type = .file →
      m.ReadsFile (m.st.pvds v).bk ((m.st.vmas vma).vmPgoff + i) f.read
  | .call (.store _ _ _) => False
  | .call op => Mild op
  | _ => True

/-- A step of the file system. -/
def Steps (e : Env PageBytes) (m : Mount) (a : Access) (m' : Mount) : Prop :=
  m.Expected a ∧ m.exec e a = .ok m'

/-! ### The value last given to a byte -/

/-- The effect of an access on the values that the bytes of a file have been given. -/
def give (w : World PageBytes) (v : PvdId) (last : ℕ → Option UInt8) : Access → ℕ → Option UInt8
  | .store vma i o b =>
    if w.areas.pvd vma = some v then
      Function.update last (((w.vmas vma).vmPgoff + i) * pageSize + o) (some b)
    else last
  | .write v' pos buf =>
    if v' = v then fun x => if pos ≤ x ∧ x < pos + buf.length then buf[x - pos]? else last x
    else last
  | _ => last

/-- The value that each byte of a file has last been given, if any. -/
def lastGiven (w : World PageBytes) (v : PvdId) (as : List Access) : ℕ → Option UInt8 :=
  as.foldl (give w v) fun _ => none

/-- A read gives each byte of its range the value it was last given. -/
def Returns (last : ℕ → Option UInt8) (pos count : ℕ) (bytes : List UInt8) : Prop :=
  ∀ k < count, ∀ b, last (pos + k) = some b → bytes[k]? = some b

/-- A read of a range that lies in one cached page is a read of page 0; any other read meets no
dirty page. -/
def ReadsCarefully (e : Env PageBytes) (m : Mount) (v : PvdId) (pos count : ℕ) : Prop :=
  if pos / pageSize = (pos + count) / pageSize ∧
      (m.st.fmapRadixLookup e v (pos / pageSize)).isSome then pos / pageSize = 0
  else ∀ k < count, ∀ p, m.st.fmapRadixLookup e v ((pos + k) / pageSize) = some p →
    (m.st.pages p).isDirty = false

/-- Writes meet no cached page, reads are careful, and no batch has too long a run. -/
def Careful (e : Env PageBytes) (m : Mount) (v : PvdId) : Access → Prop
  | .call op => ShortRuns m.st (m.st.opBatches e op)
  | .read v' pos count => v' = v → m.ReadsCarefully e v pos count
  | .write v' pos buf => v' = v →
      ∀ k < buf.length, m.st.fmapRadixLookup e v ((pos + k) / pageSize) = none
  | _ => True

/-! ### One byte -/

/-- A byte has the value `b`, wherever it is looked up: in the cached page, and in the lower file
unless the page is dirty. -/
def Shows (l : CacheLine PageBytes) (o : Fin pageSize) (b : UInt8) : Prop :=
  (∀ c d, l.cached = some (c, d) → c o = b) ∧
    ((∀ c, l.cached ≠ some (c, true)) → l.back o = b)

variable {l l' : CacheLine PageBytes} {o : Fin pageSize} {b : UInt8}

lemma Shows.silent (h : Shows l o b) (hs : l.Silent l') : Shows l' o b := by
  cases hs with
  | refl => exact h
  | fill back =>
    have hb : back o = b := h.2 (by simp)
    refine ⟨fun c d hc => ?_, fun _ => hb⟩
    obtain ⟨rfl, -⟩ : back = c ∧ false = d := by simpa using hc
    exact hb
  | drop c back => exact ⟨fun c d hc => by simp at hc, fun _ => h.2 (by simp)⟩
  | clean c back =>
    have hc : c o = b := h.1 c true rfl
    refine ⟨fun c' d hc' => ?_, fun _ => hc⟩
    obtain ⟨rfl, -⟩ : c = c' ∧ false = d := by simpa using hc'
    exact hc
  | mark c d back =>
    refine ⟨fun c' d' hc => ?_, fun hn => absurd rfl (hn c)⟩
    obtain ⟨rfl, -⟩ : c = c' ∧ true = d' := by simpa using hc
    exact h.1 c d rfl

/-- A store into a dirty page. -/
lemma Shows.write {c : PageBytes} {f : PageBytes → PageBytes} (hl : l.cached = some (c, true))
    (hf : f c o = b) : Shows (l.write f) o b := by
  simp only [CacheLine.write, Shows, hl, Option.map_some]
  refine ⟨fun c' d hc => ?_, fun hn => absurd rfl (hn (f c))⟩
  obtain ⟨rfl, -⟩ : f c = c' ∧ true = d := by simpa using hc
  exact hf

/-- A line that is not cached any more was not dirty. -/
lemma not_dirty_of_silent (hs : l.Silent l') (hl : l'.cached = none) (c : PageBytes) :
    l.cached ≠ some (c, true) := by
  cases hs with
  | refl => simp [hl]
  | fill back => simp at hl
  | drop c back => simp
  | clean c back => simp at hl
  | mark c d back => simp at hl

lemma lt_of_div_eq {x : ℕ} {off : Pgoff} (h : x / pageSize = off) : x < (off + 1) * pageSize := by
  subst h
  exact Nat.lt_mul_of_div_lt (Nat.lt_succ_self _) (by decide)

lemma div_mul_add_inPage (x : ℕ) : x / pageSize * pageSize + inPage x = x := by
  rw [Nat.mul_comm]
  exact Nat.div_add_mod x pageSize

/-! ### Every access -/

variable {e : Env PageBytes} {w : World PageBytes} {v : PvdId} {m m' : Mount}
  {last : ℕ → Option UInt8}

/-- Every byte of the file that has been given a value shows it, and is a byte of the lower file
unless its page is dirty. -/
structure Ok (e : Env PageBytes) (w : World PageBytes) (v : PvdId) (last : ℕ → Option UInt8)
    (m : Mount) :
    Prop where
  steady : Steady e w m.st
  shows {x : ℕ} {b : UInt8} : last x = some b → Shows (m.st.line e v (x / pageSize)) (inPage x) b
  inFile {x : ℕ} {b : UInt8} : last x = some b →
    (∀ c, (m.st.line e v (x / pageSize)).cached ≠ some (c, true)) → x < m.iSize (w.pvds v).bk

lemma steady_resize (h : Steady e w m.st) (size : DevId → ℕ) : Steady e w (m.resize size).st :=
  h.of_keeps ⟨{ h.quiet.placed with }, rfl⟩ rfl rfl rfl

/-- The lower file has grown past a page of a batch. -/
lemma lt_grown {bs : List (List PageId)} (hr : ShortRuns m.st bs) {b : List PageId} (hb : b ∈ bs)
    {p : PageId} (hp : p ∈ b) {x : ℕ} (hc : (m.st.pages p).Caches v (x / pageSize))
    (ht : (m.st.pvds v).type = .file) : x < m.grown bs (m.st.pvds v).bk := by
  obtain ⟨r, hreq, hpr⟩ := exists_request (hr b hb) hp
  have hmem : p ∈ (bs.flatMap m.st.requests).flatten.toFinset := by
    rw [List.mem_toFinset]
    exact List.mem_flatten.mpr ⟨r, List.mem_flatMap.mpr ⟨b, hb, hreq⟩, hpr⟩
  have hend : m.pageEnd (m.st.pvds v).bk p = (x / pageSize + 1) * pageSize := by
    simp only [pageEnd, hc.2.1, ht, hc.2.2, and_self, if_true]
  calc x < (x / pageSize + 1) * pageSize := lt_of_div_eq rfl
    _ = m.pageEnd (m.st.pvds v).bk p := hend.symm
    _ ≤ (bs.flatMap m.st.requests).flatten.toFinset.sup (m.pageEnd (m.st.pvds v).bk) :=
      Finset.le_sup hmem
    _ ≤ m.grown bs (m.st.pvds v).bk := le_max_right _ _

lemma Ok.call (he : e.writeAsync = driverWriter) (ht : (w.pvds v).type = .file)
    (ha : ∀ v', (w.pvds v').bk = (w.pvds v).bk → v' = v) (h : Ok e w v last m) {op : Op PageBytes}
    (hx : m.Expected (.call op)) (hr : m.Careful e v (.call op))
    (hs : m.exec e (.call op) = .ok m') : Ok e w v last m' := by
  have hmild : Mild op ∧ ∀ vma i f, op ≠ .store vma i f := by
    cases op with
    | store vma i f => exact absurd hx not_false
    | fault vma i f => exact ⟨trivial, by simp⟩
    | _ => exact ⟨hx, by simp⟩
  obtain ⟨st, hst, rfl⟩ := Except.map_eq_ok.mp hs
  have hsteady := h.steady.step hmild.1 hst
  refine ⟨steady_resize (m := ⟨st, m.iSize⟩) hsteady _, fun {x b} hb => ?_, fun {x b} hb hn => ?_⟩
  · obtain ⟨l, h₁, h₂⟩ := h.steady.line_step ha hmild.1 hmild.2 (writesOp_of_shortRuns he hr) hst
      (x / pageSize)
    have hl := (h.shows hb).silent h₁
    rcases h₂ with h₂ | h₂
    · exact hl.silent h₂
    · -- the page that the fault has read
      obtain ⟨vma, i, f, frame, rfl, hv, hoff, hl'⟩ := h₂.after
      have hlt := h.inFile hb (not_dirty_of_silent h₁ (by rw [h₂.before]))
      have hback : m.st.disk ((m.st.pvds v).bk, x / pageSize) (inPage x) = b := by
        have := hl.2 (by simp [h₂.before])
        rwa [h₂.before] at this
      have htype : (m.st.pvds v).type = .file := by rw [h.steady.pvds, ht]
      have hread := hx v ((h.steady.vmaPvd vma).symm.trans hv) htype
      rw [h.steady.vmas, hoff, h.steady.pvds] at hread
      have hcont := hread (m.st.disk ((w.pvds v).bk, x / pageSize)) frame (inPage x)
        (by rwa [div_mul_add_inPage])
      have hcont' : m.st.loaded v (x / pageSize) f.read frame (inPage x) = b := by
        rw [loaded, readAs, if_neg (by simp [htype]), h.steady.pvds, hcont, ← h.steady.pvds,
          hback]
      change Shows (st.line e v (x / pageSize)) (inPage x) b
      rw [hl']
      refine ⟨fun c d hc => ?_, fun _ => hback⟩
      obtain ⟨rfl, -⟩ : m.st.loaded v (x / pageSize) f.read frame = c ∧ false = d := by
        simpa using hc
      exact hcont'
  · have hn' : ¬ ∃ p, DirtyFor (st.pages p) v (x / pageSize) := by
      rw [← hsteady.quiet.inv.line_dirty_iff]
      rintro ⟨c, hc⟩
      exact hn c hc
    by_cases hd : ∃ p, DirtyFor (m.st.pages p) v (x / pageSize)
    · obtain ⟨p, hp⟩ := hd
      rcases h.steady.quiet.dirtyFor_or_mem hmild.1 (h.steady.issued hst) hst hp with
        hp' | ⟨b, hbs, hpb⟩
      · exact absurd ⟨p, hp'⟩ hn'
      · have := lt_grown hr hbs hpb hp.1 (by rw [h.steady.pvds, ht])
        rwa [h.steady.pvds] at this
    · refine lt_of_lt_of_le (h.inFile hb fun c hc => hd ?_) (le_max_left _ _)
      exact h.steady.quiet.inv.line_dirty_iff.mp ⟨c, hc⟩

lemma Ok.store (h : Ok e w v last m) {vma : VmaId} {i : ℕ} {o : Fin pageSize} {b : UInt8}
    (hs : m.exec e (.store vma i o b) = .ok m') :
    Ok e w v (give w v last (.store vma i o b)) m' := by
  obtain ⟨st, hst, rfl⟩ := Except.map_eq_ok.mp hs
  obtain ⟨hcached, hline⟩ := h.steady.line_store hst v
  set off := (w.vmas vma).vmPgoff + i with hoff
  -- a byte of the page that is written, and any other byte
  have hcases : ∀ x b', give w v last (.store vma i o b) x = some b' →
      (w.areas.pvd vma = some v ∧ x / pageSize = off ∧
        ∃ c, (m.st.line e v off).cached = some (c, true) ∧
          Function.update c o b (inPage x) = b') ∨
      (st.line e v (x / pageSize) = m.st.line e v (x / pageSize) ∧ last x = some b') := by
    intro x b' hb
    simp only [give] at hb
    by_cases hv : w.areas.pvd vma = some v
    · rw [if_pos hv] at hb
      by_cases hx : x / pageSize = off
      · obtain ⟨c, hc⟩ := hcached hv
        refine Or.inl ⟨hv, hx, c, hc, ?_⟩
        have hxo : x = off * pageSize + o ↔ inPage x = o := by
          rw [Fin.ext_iff, ← hx]
          have := div_mul_add_inPage x
          omega
        by_cases ho : inPage x = o
        · rw [Function.update_apply, if_pos (hxo.mpr ho)] at hb
          rw [ho, Function.update_self]
          exact Option.some_injective _ hb
        · rw [Function.update_of_ne fun hc => ho (hxo.mp hc)] at hb
          rw [Function.update_of_ne ho]
          have hs := h.shows hb
          rw [hx] at hs
          exact hs.1 c true hc
      · refine Or.inr ⟨by rw [hline, if_neg fun hc => hx hc.2], ?_⟩
        rwa [Function.update_of_ne] at hb
        rintro rfl
        apply hx
        rw [Nat.add_comm, Nat.add_mul_div_right _ _ (by decide), Nat.div_eq_of_lt o.2,
          Nat.zero_add]
    · rw [if_neg hv] at hb
      exact Or.inr ⟨by rw [hline, if_neg fun hc => hv hc.1], hb⟩
  have hmild : Mild (.store vma i fun c : PageBytes => Function.update c o b) := trivial
  refine ⟨h.steady.step hmild hst, fun {x b'} hb => ?_, fun {x b'} hb hn => ?_⟩
  · rcases hcases x b' hb with ⟨hv, hx, c, hc, hf⟩ | ⟨hl, hb'⟩
    · change Shows (st.line e v (x / pageSize)) (inPage x) b'
      rw [hline, if_pos ⟨hv, hx⟩, hx]
      exact Shows.write hc hf
    · change Shows (st.line e v (x / pageSize)) (inPage x) b'
      rw [hl]
      exact h.shows hb'
  · rcases hcases x b' hb with ⟨hv, hx, c, hc, -⟩ | ⟨hl, hb'⟩
    · refine absurd ?_ (hn (Function.update c o b))
      change (st.line e v (x / pageSize)).cached = _
      rw [hline, if_pos ⟨hv, hx⟩, hx, CacheLine.write, hc]
      rfl
    · exact h.inFile hb' fun c hc => hn c (by rw [← hc, ← hl])

/-- The lower file after a write. -/
lemma overwrite_apply (d : DevId) (pos : ℕ) (buf : List UInt8) (x : ℕ) :
    m.overwrite d pos buf (d, x / pageSize) (inPage x) =
      if x < pos then (if m.iSize d ≤ x then 0 else m.byte d x)
      else (buf[x - pos]?).getD (m.byte d x) := by
  simp only [overwrite, div_mul_add_inPage, ne_eq, not_true_eq_false, if_false, byte]

lemma Ok.write (ha : ∀ v', (w.pvds v').bk = (w.pvds v).bk → v' = v) (h : Ok e w v last m)
    {v' : PvdId} {pos : ℕ} {buf : List UInt8} (hc : m.Careful e v (.write v' pos buf))
    (hs : m.exec e (.write v' pos buf) = .ok m') :
    Ok e w v (give w v last (.write v' pos buf)) m' := by
  obtain rfl : m.vfsWrite (m.st.pvds v').bk pos buf = m' := by simpa [exec, wrapfsWrite] using hs
  by_cases hbuf : buf = []
  · subst hbuf
    have hgive : give w v last (.write v' pos []) = last := by
      funext x
      simp only [give, List.length_nil, Nat.add_zero]
      split_ifs
      · exact if_neg (by omega)
      · rfl
    rw [hgive]
    exact h
  · rw [vfsWrite, if_neg hbuf, h.steady.pvds]
    set d := (w.pvds v').bk with hd
    set m₁ : Mount := { m with st := { m.st with disk := m.overwrite d pos buf } } with hm₁
    have hsteady : Steady e w m₁.st :=
      h.steady.of_keeps ⟨{ h.steady.quiet.placed with }, rfl⟩ rfl rfl rfl
    -- the cached pages are the same
    have hcached : ∀ off, (m₁.st.line e v off).cached = (m.st.line e v off).cached := fun _ => rfl
    have hback : ∀ x, (m₁.st.line e v (x / pageSize)).back (inPage x) =
        m.overwrite d pos buf ((w.pvds v).bk, x / pageSize) (inPage x) := by
      intro x
      change m₁.st.disk ((m.st.pvds v).bk, x / pageSize) (inPage x) = _
      rw [h.steady.pvds]
    have hback₀ : ∀ x, (m.st.line e v (x / pageSize)).back (inPage x) = m.byte (w.pvds v).bk x := by
      intro x
      rw [← h.steady.pvds]
      rfl
    by_cases hv : v' = v
    · subst hv
      -- a byte that is written, and any other byte
      have hcases : ∀ x b, give w v' last (.write v' pos buf) x = some b →
          ((m.st.line e v' (x / pageSize)).cached = none ∧ x < pos + buf.length ∧
            m.overwrite d pos buf (d, x / pageSize) (inPage x) = b) ∨
          (last x = some b ∧ (x < m.iSize d → m.overwrite d pos buf (d, x / pageSize) (inPage x) =
            m.byte d x)) := by
        intro x b hb
        simp only [give, if_true] at hb
        rw [overwrite_apply]
        split_ifs at hb with hx
        · obtain ⟨hlo, hhi⟩ := hx
          refine Or.inl ⟨?_, hhi, ?_⟩
          · have := hc rfl (x - pos) (by omega)
            rw [Nat.add_sub_cancel' hlo] at this
            simp only [line, this, Option.map_none]
          · rw [if_neg (not_lt.mpr hlo), hb]
            rfl
        · refine Or.inr ⟨hb, fun hlt => ?_⟩
          rw [if_neg (not_le.mpr hlt)]
          split_ifs with hpos
          · rfl
          · rw [List.getElem?_eq_none (by omega)]
            rfl
      refine ⟨steady_resize (m := m₁) hsteady _, fun {x b} hb => ?_, fun {x b} hb hn => ?_⟩
      · change Shows (m₁.st.line e v' (x / pageSize)) (inPage x) b
        rcases hcases x b hb with ⟨hnone, -, hw⟩ | ⟨hb', hw⟩
        · refine ⟨fun c d hc => ?_, fun _ => (hback x).trans hw⟩
          rw [hcached, hnone] at hc
          exact absurd hc (by simp)
        · refine ⟨fun c d hc => (h.shows hb').1 c d hc, fun hn => ?_⟩
          rw [hback, hw (h.inFile hb' hn), ← hback₀]
          exact (h.shows hb').2 hn
      · change x < Function.update m.iSize d _ (w.pvds v').bk
        rw [Function.update_self]
        rcases hcases x b hb with ⟨-, hlt, -⟩ | ⟨hb', -⟩
        · exact lt_max_of_lt_right hlt
        · exact lt_max_of_lt_left (h.inFile hb' hn)
    · -- another lower file
      have hne : (w.pvds v).bk ≠ d := fun heq => hv (ha v' heq.symm)
      simp only [give, if_neg hv]
      refine ⟨steady_resize (m := m₁) hsteady _, fun {x b} hb => ?_, fun {x b} hb hn => ?_⟩
      · change Shows (m₁.st.line e v (x / pageSize)) (inPage x) b
        refine ⟨fun c d hc => (h.shows hb).1 c d hc, fun hn => ?_⟩
        rw [hback]
        simp only [overwrite, ne_eq, hne, not_false_eq_true, if_true]
        rw [← (h.shows hb).2 hn, hback₀]
        rfl
      · change x < Function.update m.iSize d _ (w.pvds v).bk
        rw [Function.update_of_ne hne]
        exact h.inFile hb hn

/-- The access finds room in the arrays that it writes. -/
def Fits (e : Env PageBytes) (m : Mount) : Access → Prop
  | .call op => m.st.Fits e op
  | _ => True

/-- A step that is careful and finds room. -/
def CarefulSteps (e : Env PageBytes) (v : PvdId) (m : Mount) (a : Access) (m' : Mount) : Prop :=
  m.Steps e a m' ∧ m.Careful e v a ∧ m.Fits e a

lemma Ok.step (he : e.writeAsync = driverWriter) (ht : (w.pvds v).type = .file)
    (ha : ∀ v', (w.pvds v').bk = (w.pvds v).bk → v' = v) (h : Ok e w v last m) {a : Access}
    (hs : CarefulSteps e v m a m') : Ok e w v (give w v last a) m' := by
  obtain ⟨⟨hx, hs⟩, hc, -⟩ := hs
  cases a with
  | call op => exact h.call he ht ha hx hc hs
  | store vma i o b => exact h.store hs
  | read v' pos count =>
    obtain rfl : m = m' := by simpa [exec] using hs
    exact h
  | write v' pos buf => exact h.write ha hc hs

lemma ok_init (e : Env PageBytes) (w : World PageBytes) (v : PvdId) (size : DevId → ℕ) :
    Ok e w v (fun _ => none) ⟨initParams e w, size⟩ :=
  ⟨steady_initParams e w, fun hb => by simp at hb, fun hb => by simp at hb⟩

lemma Ok.run (he : e.writeAsync = driverWriter) (ht : (w.pvds v).type = .file)
    (ha : ∀ v', (w.pvds v').bk = (w.pvds v).bk → v' = v) {size : DevId → ℕ} {as : List Access}
    (hr : Run (CarefulSteps e v) ⟨initParams e w, size⟩ as m) :
    Ok e w v (lastGiven w v as) m := by
  induction hr with
  | nil => exact ok_init e w v size
  | snoc hr hs ih =>
    rw [lastGiven, List.foldl_append]
    exact ih.step he ht ha hs

/-- A careful read returns what was last given. -/
lemma Ok.read (hm : (w.pvds v).mmaped = true) (h : Ok e w v last m) {pos count : ℕ}
    (hc : m.ReadsCarefully e v pos count) (beyond : ℕ → UInt8) :
    Returns last pos count (m.wrapfsRead e (some v) (w.pvds v).bk pos count beyond).1 := by
  intro k hk b hb
  have hlower : (∀ k < count, ∀ p, m.st.fmapRadixLookup e v ((pos + k) / pageSize) = some p →
      (m.st.pages p).isDirty = false) → (m.vfsRead (w.pvds v).bk pos count).1[k]? = some b := by
    intro hclean
    have hn : ∀ c, (m.st.line e v ((pos + k) / pageSize)).cached ≠ some (c, true) := by
      intro c hcc
      obtain ⟨p, hp, heq⟩ := Option.map_eq_some_iff.mp hcc
      have hd := hclean k hk p hp
      rw [(Prod.mk.inj heq).2] at hd
      exact Bool.false_ne_true hd.symm
    have hlt := h.inFile hb hn
    have hbyte : m.byte (w.pvds v).bk (pos + k) = b := by
      rw [← (h.shows hb).2 hn, ← h.steady.pvds]
      rfl
    simp only [vfsRead, List.getElem?_map]
    rw [List.getElem?_range (by omega), Option.map_some, hbyte]
  have hmm : (m.st.pvds v).mmaped = true := by rw [h.steady.pvds, hm]
  simp only [wrapfsRead, hmm, true_and]
  simp only [ReadsCarefully] at hc
  by_cases hpage : pos / pageSize = (pos + count) / pageSize
  · rw [if_pos hpage]
    cases hl : m.st.fmapRadixLookup e v (pos / pageSize) with
    | none =>
      rw [if_neg (by simp [hl])] at hc
      exact hlower hc
    | some p =>
      rw [if_pos ⟨hpage, by simp [hl]⟩] at hc
      -- the range lies in page 0, where the two positions are the same
      have hlt : pos + k < pageSize := by
        rw [hc, eq_comm, Nat.div_eq_zero_iff] at hpage
        have hps : pageSize ≠ 0 := by decide
        omega
      have hz : (pos + k) / pageSize = pos / pageSize := by rw [hc, Nat.div_eq_of_lt hlt]
      have hcached : (m.st.line e v ((pos + k) / pageSize)).cached =
          some ((m.st.pages p).content, (m.st.pages p).isDirty) := by
        simp only [line, hz, hl, Option.map_some]
      have hval := (h.shows hb).1 _ _ hcached
      have hin : inPage (pos + k) = ⟨pos + k, hlt⟩ := Fin.ext (Nat.mod_eq_of_lt hlt)
      simp only [List.getElem?_map]
      rw [List.getElem?_range hk, Option.map_some, virt, dif_pos hlt, ← hin, hval]
  · rw [if_neg hpage]
    rw [if_neg fun h => hpage h.1] at hc
    exact hlower hc

/-- An access that finds room does not write outside an array. -/
lemma Ok.not_overruns (h : Ok e w v last m) {a : Access} (hfits : m.Fits e a) :
    ¬ Overruns (m.exec e a) := by
  cases a with
  | call op => exact fun ho => h.steady.quiet.not_overruns hfits (overruns_map ho)
  | store vma i o b =>
    intro ho
    have hstore : ∀ f, ¬ Overruns (m.st.store vma i f) := by
      intro f
      have hop : ¬ Overruns (m.st.exec e (.store vma i f)) := h.steady.quiet.not_overruns trivial
      exact hop
    exact hstore _ (overruns_map ho)
  | read v' pos count => exact not_overruns_ok _
  | write v' pos buf => exact not_overruns_ok _

/-- In every run whose accesses are careful and find room in the arrays, a careful read of a regular
file that is mapped returns the value that each byte of its range was last given. -/
theorem careful_read_returns_last (e : Env PageBytes) (he : e.writeAsync = driverWriter)
    (w : World PageBytes) (size : DevId → ℕ) (v : PvdId) (ht : (w.pvds v).type = .file)
    (hm : (w.pvds v).mmaped = true) (ha : ∀ v', (w.pvds v').bk = (w.pvds v).bk → v' = v)
    (as : List Access) (m : Mount)
    (hr : Run (CarefulSteps e v) ⟨initParams e w, size⟩ as m) :
    (∀ pos count, m.ReadsCarefully e v pos count → ∀ beyond,
      Returns (lastGiven w v as) pos count
        (m.wrapfsRead e (some v) (w.pvds v).bk pos count beyond).1) ∧
    ∀ a, m.Fits e a → ¬ Overruns (m.exec e a) := by
  have h := Ok.run he ht ha hr
  exact ⟨fun pos count hc beyond => h.read hm hc beyond, fun a hfits => h.not_overruns hfits⟩

/-- One CPU, one node and four pages. -/
def byteEnv : Env PageBytes where
  ncpus := 1
  ncpus_pos := Nat.one_pos
  bufSize := 4
  bufSize_lt := smallEnv.bufSize_lt
  numaDv _ := [0]
  cpumaskOfNode _ := [0]
  writeAsync := driverWriter

/-- File `v` is mapped from its start into area `v`. -/
def byteWorld : World PageBytes where
  frame _ _ := 0
  pvds v := ⟨.file, v, true, true, true, false⟩
  vmas v := ⟨0, 8 * pageSize, 0, v⟩
  infos i := ⟨true, some i, some i⟩
  disk _ _ := 0
  bitmap _ := true
  devPages _ := 8

/-- Eight pages in every file. -/
def byteSize (_ : DevId) : ℕ := 8 * pageSize

/-- A fault whose read succeeds. -/
def byteFault : FaultEnv PageBytes := ⟨[⟨false, 0, 0⟩, ⟨false, 0, 0⟩], 0, .full⟩

/-- A byte of page 0 is stored through the mapping. -/
def storeByte (x : ℕ) : List Access :=
  [.call (.fault 0 0 byteFault), .call (.mkwrite 0 0), .store 0 0 (inPage x) 5]

/-- The state after a sequence of accesses, if all complete. -/
def execAll (e : Env PageBytes) (m : Mount) (as : List Access) : Option Mount :=
  as.foldlM (fun m a => (m.exec e a).toOption) m

lemma run_storeByte {x : ℕ}
    (h : execAll byteEnv ⟨initParams byteEnv byteWorld, byteSize⟩ (storeByte x) = some m') :
    Run (CarefulSteps byteEnv 0) ⟨initParams byteEnv byteWorld, byteSize⟩ (storeByte x) m' := by
  simp only [execAll, storeByte, List.foldlM_cons, List.foldlM_nil] at h
  obtain ⟨m₁, h₁, h⟩ := Option.bind_eq_some_iff.mp h
  obtain ⟨m₂, h₂, h⟩ := Option.bind_eq_some_iff.mp h
  obtain ⟨m₃, h₃, h⟩ := Option.bind_eq_some_iff.mp h
  obtain rfl := Option.some.inj h
  -- nothing is cached when the fault is made
  have hfits : Fits byteEnv ⟨initParams byteEnv byteWorld, byteSize⟩
      (.call (.fault 0 0 byteFault)) := by
    rintro v p - ⟨hu, -, -⟩
    exact absurd hu Bool.false_ne_true
  exact ((Run.nil.snoc ⟨⟨fun _ _ _ _ _ _ _ => rfl, Except.toOption_eq_some.mp h₁⟩,
    fun b hb => absurd hb List.not_mem_nil, hfits⟩).snoc
      ⟨⟨trivial, Except.toOption_eq_some.mp h₂⟩, fun b hb => absurd hb List.not_mem_nil,
        trivial⟩).snoc ⟨⟨trivial, Except.toOption_eq_some.mp h₃⟩, trivial, trivial⟩

set_option maxRecDepth 4000 in
/-- A byte that is stored in page 0 and a byte that is written into page 1 are read back. -/
theorem careful_read_returns_last_storeByte : ∃ m,
    Run (CarefulSteps byteEnv 0) ⟨initParams byteEnv byteWorld, byteSize⟩
      (storeByte 7 ++ [.write 0 5000 [6]]) m ∧
    (m.wrapfsRead byteEnv (some 0) 0 7 1 fun _ => 9).1[0]? = some 5 ∧
    (m.wrapfsRead byteEnv (some 0) 0 5000 1 fun _ => 9).1[0]? = some 6 := by
  have h : ((execAll byteEnv ⟨initParams byteEnv byteWorld, byteSize⟩ (storeByte 7)).map fun m =>
      (m.st.fmapRadixLookup byteEnv 0 0, m.st.fmapRadixLookup byteEnv 0 1)) =
        some (some 0, none) := by
    decide +kernel
  obtain ⟨m, hs, hl⟩ := Option.map_eq_some_iff.mp h
  obtain ⟨hl₀, hl₁⟩ := Prod.mk.inj hl
  have hstep : CarefulSteps byteEnv 0 m (.write 0 5000 [6])
      (m.wrapfsWrite (m.st.pvds 0).bk 5000 [6]) := by
    refine ⟨⟨trivial, rfl⟩, fun _ k hk => ?_, trivial⟩
    obtain rfl : k = 0 := by simpa using hk
    exact hl₁
  have hr := (run_storeByte hs).snoc hstep
  set m' := m.wrapfsWrite (m.st.pvds 0).bk 5000 [6] with hm'
  have hl₀' : m'.st.fmapRadixLookup byteEnv 0 0 = some 0 := hl₀
  have hl₁' : m'.st.fmapRadixLookup byteEnv 0 1 = none := hl₁
  have hread := (careful_read_returns_last byteEnv rfl byteWorld byteSize 0 rfl rfl
    (fun _ hv => hv) _ m' hr).1
  refine ⟨m', hr, ?_, ?_⟩
  · refine hread 7 1 ?_ (fun _ => 9) 0 (by decide) 5 (by decide)
    rw [ReadsCarefully, if_pos ⟨by decide, by rw [show 7 / pageSize = 0 from rfl, hl₀']; rfl⟩]
    rfl
  · refine hread 5000 1 ?_ (fun _ => 9) 0 (by decide) 6 (by decide)
    rw [ReadsCarefully, if_neg (by rw [show 5000 / pageSize = 1 from rfl, hl₁']; simp)]
    intro k hk p hp
    obtain rfl : k = 0 := by simpa using hk
    rw [show (5000 + 0) / pageSize = 1 from rfl, hl₁'] at hp
    exact absurd hp (by simp)

set_option maxRecDepth 4000 in
/-- The last byte of page 0 is stored through the mapping. A read of this one byte ends at a page
boundary, so that it is taken for one of two pages and returns the byte of the lower file. -/
theorem wrapfsRead_misses_store : ¬ ∀ (e : Env PageBytes) (w : World PageBytes) (size : DevId → ℕ)
    (v : PvdId) (as : List Access) (m : Mount), e.writeAsync = driverWriter →
      (w.pvds v).type = .file → (w.pvds v).mmaped = true →
      (∀ v', (w.pvds v').bk = (w.pvds v).bk → v' = v) →
      Run (Steps e) ⟨initParams e w, size⟩ as m → ∀ pos count beyond,
        Returns (lastGiven w v as) pos count
          (m.wrapfsRead e (some v) (w.pvds v).bk pos count beyond).1 := by
  intro hall
  have h : ((execAll byteEnv ⟨initParams byteEnv byteWorld, byteSize⟩ (storeByte 4095)).map fun m =>
      (m.wrapfsRead byteEnv (some 0) 0 4095 1 fun _ => 9).1) = some [0] := by
    decide +kernel
  obtain ⟨m, hs, hread⟩ := Option.map_eq_some_iff.mp h
  have hr : Run (Steps byteEnv) _ _ m := (run_storeByte hs).mono_of_mem fun _ _ _ _ hs => hs.1
  have hret := hall byteEnv byteWorld byteSize 0 _ m rfl rfl rfl (fun _ hv => hv) hr 4095 1
    (fun _ => 9) 0 (by decide) 5 (by decide)
  rw [show (byteWorld.pvds 0).bk = 0 from rfl, hread] at hret
  exact absurd hret (by decide)

/-! ### The two paths of a read -/

/-- The cached page has the content of the lower file. -/
def CachedAsIs (e : Env PageBytes) (m : Mount) (v : PvdId) (d : DevId) (off : Pgoff) : Prop :=
  ∃ p, m.st.fmapRadixLookup e v off = some p ∧
    ∀ x, x / pageSize = off → x < m.iSize d → m.byte d x = (m.st.pages p).content (inPage x)

/-- `wrapfs_read` returns what `vfs_read` would return, whatever lies beyond the frame, and leaves
`*ppos` where `vfs_read` would leave it. -/
structure ReadsAlike (e : Env PageBytes) (m : Mount) (v : PvdId) (d : DevId) (pos count : ℕ) :
    Prop where
  bytes (beyond : ℕ → UInt8) :
    (m.wrapfsRead e (some v) d pos count beyond).1 = (m.vfsRead d pos count).1
  ppos (beyond : ℕ → UInt8) :
    (m.wrapfsRead e (some v) d pos count beyond).2 = (m.vfsRead d pos count).2

lemma wrapfsRead_cached {d : DevId} {pos count : ℕ} {p : PageId} {beyond : ℕ → UInt8}
    (hm : (m.st.pvds v).mmaped = true) (hpos : pos / pageSize = (pos + count) / pageSize)
    (hp : m.st.fmapRadixLookup e v (pos / pageSize) = some p) :
    m.wrapfsRead e (some v) d pos count beyond =
      ((List.range count).map fun k => m.virt p beyond (pos + k), pos) := by
  simp only [wrapfsRead, if_pos (And.intro hm hpos), hp]

section paths

variable {d : DevId} {pos count : ℕ} (hm : (m.st.pvds v).mmaped = true)
  (hpos : pos / pageSize = (pos + count) / pageSize)
  (hc : m.CachedAsIs e v d (pos / pageSize)) (hsize : pos + count ≤ m.iSize d)
include hm hpos hc hsize

/-- The bytes are right in page 0 only: in later pages the position in the file leads past the
frame. -/
lemma forall_bytes_eq_iff :
    (∀ beyond, (m.wrapfsRead e (some v) d pos count beyond).1 = (m.vfsRead d pos count).1) ↔
      count = 0 ∨ pos < pageSize := by
  obtain ⟨p, hp, hsame⟩ := hc
  have hmin : min count (m.iSize d - pos) = count := by omega
  simp only [wrapfsRead_cached hm hpos hp, vfsRead, hmin]
  constructor
  · intro h
    by_contra hne
    obtain ⟨hcount, hfar⟩ := not_or.mp hne
    -- other memory holds something else
    have hfirst := congrArg (fun l => l[0]?) (h fun x => m.byte d x + 1)
    have hlt : 0 < count := Nat.pos_of_ne_zero hcount
    simp only [List.getElem?_map, List.getElem?_range hlt, Option.map_some, Nat.add_zero, virt,
      dif_neg hfar, Option.some.injEq] at hfirst
    exact absurd hfirst (by simp)
  · rintro (rfl | hlt) beyond
    · rfl
    · have hdiv : pos / pageSize = 0 := Nat.div_eq_of_lt hlt
      refine List.map_congr_left fun k hk => ?_
      have hk := List.mem_range.mp hk
      have hend : pos + k < pageSize := by
        rw [hdiv] at hpos
        have := (Nat.div_eq_zero_iff.mp hpos.symm).resolve_left (by decide)
        omega
      have hin : inPage (pos + k) = ⟨pos + k, hend⟩ := Fin.ext (Nat.mod_eq_of_lt hend)
      rw [hsame (pos + k) (by rw [hdiv, Nat.div_eq_of_lt hend]) (by omega), virt, dif_pos hend, hin]

/-- The two paths agree on empty reads only: the first one does not move `*ppos`. -/
theorem readsAlike_iff : ReadsAlike e m v d pos count ↔ count = 0 := by
  constructor
  · intro h
    obtain ⟨p, hp, -⟩ := hc
    have hppos := h.ppos fun _ => 0
    simp only [wrapfsRead_cached hm hpos hp, vfsRead] at hppos
    omega
  · rintro rfl
    refine ⟨(forall_bytes_eq_iff hm hpos hc hsize).mpr (Or.inl rfl), fun beyond => ?_⟩
    obtain ⟨p, hp, -⟩ := hc
    simp [wrapfsRead_cached hm hpos hp, vfsRead]

end paths

/-- A file of zeros whose page 0 is cached. -/
def cachedZeros : Mount where
  st :=
    let s := initParams byteEnv byteWorld
    { s with trees := fun _ => KeyMap.empty.insertNew 0 0 }
  iSize := byteSize

lemma cachedAsIs_cachedZeros : cachedZeros.CachedAsIs byteEnv 0 0 0 :=
  ⟨0, by decide, fun _ _ _ => rfl⟩

/-- An empty read. -/
theorem readsAlike_cachedZeros :
    ReadsAlike byteEnv cachedZeros 0 0 0 0 ∧ ¬ ReadsAlike byteEnv cachedZeros 0 0 0 1 :=
  ⟨(readsAlike_iff rfl (by decide) cachedAsIs_cachedZeros (by decide)).mpr rfl,
    fun h => absurd ((readsAlike_iff rfl (by decide) cachedAsIs_cachedZeros (by decide)).mp h)
      (by decide)⟩

/-- A read of one byte from the cache leaves `*ppos` at 0. -/
theorem cached_read_keeps_ppos :
    ¬ ∀ (e : Env PageBytes) (m : Mount) (v : PvdId) (d : DevId) (pos count : ℕ),
      (m.st.pvds v).mmaped = true → pos / pageSize = (pos + count) / pageSize →
      m.CachedAsIs e v d (pos / pageSize) → pos + count ≤ m.iSize d →
        ReadsAlike e m v d pos count := by
  intro hall
  have h := hall byteEnv cachedZeros 0 0 0 1 rfl (by decide) cachedAsIs_cachedZeros (by decide)
  have hppos := h.ppos fun _ => 0
  exact absurd hppos (by decide)

end Mount

end FastMap
