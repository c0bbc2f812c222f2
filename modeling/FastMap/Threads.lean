import FastMap.System

/-!
# Threads

The calls of the driver as programs that several threads run at once. A step of a thread is one
section under a spinlock (of a queue, a free list, a tree or a page) with the local computation
around it; `trylock_tp`, `unlock_tp`, `alloc_page_lock`, `free_page_lock` and each operation on a
tree are single steps. `Pc` is the point a thread has reached in its call, with the locals that
are still needed there.
-/

namespace FastMap

variable {C : Type*}

/-- Evictor `id` serves dirty queue `id`; the other threads are those of the users. -/
inductive Tid where
  | evictor (id : ℕ)
  | user (n : ℕ)
  deriving DecidableEq, Repr

/-- The locals of a fault: `vmf` and the pvd of its area. -/
structure Req where
  vmf : VmFault
  pvd : PvdId
  deriving DecidableEq, Repr

/-- The arguments of `write_dirty_pages`. -/
structure SyncArgs where
  cb : Cleanup
  pvd : PvdId
  deriving DecidableEq, Repr

/-- Where the collection loop of an evictor is: its `ID`, the pvd, the iterations left, the next
offset and the batch. -/
structure Scan where
  id : ℕ
  pvd : PvdId
  iter : ℕ
  offset : Pgoff
  pgs : List PageId
  deriving DecidableEq, Repr

/-- The next iteration of the collection loop. -/
def Scan.next (c : Scan) (pgs : List PageId) : Scan :=
  { c with iter := c.iter - 1, offset := c.offset + 1, pgs := pgs }

/-! ### Program points -/

/-- The points of `perma_getpage`. -/
inductive GetPc where
  | lookup
  | alloc
  | fresh (p : PageId)
  | insert (p : PageId)
  | rollback (p : PageId)
  | enqueue (p : PageId)
  | io (p : PageId)
  | lock (p : PageId)
  | valid (p : PageId)
  /-- `pgfault_done` -/
  | done (p : PageId)
  | map (p : PageId)
  deriving DecidableEq, Repr

/-- The points of `perma_page_mkwrite`. -/
inductive MkPc where
  | lock
  /-- The call of `dmap_do_tagged_page_writable`. -/
  | dirty
  | insert
  | remove
  | enqueue
  | map
  deriving DecidableEq, Repr

/-- The points of `try_purge_pages_fast`. -/
inductive PurgePc where
  | take (qid n : ℕ) (pgs : List PageId)
  | delete (qid n : ℕ) (pgs : List PageId) (p : PageId)
  | unmap (qid n : ℕ) (pgs : List PageId) (p : PageId)
  | free (pgs : List PageId)
  deriving DecidableEq, Repr

/-- The points of a round of `evictor_thread`. -/
inductive EvictPc where
  | take (id : ℕ)
  | untree (id : ℕ) (p : PageId)
  | scan (c : Scan)
  | grab (c : Scan) (q : PageId)
  | back (c : Scan) (q : PageId)
  | clear (v : PvdId) (pgs : List PageId)
  | write (v : PvdId) (pgs : List PageId)
  | insert (v : PvdId) (done todo : List PageId)
  | unlock (todo : List PageId)
  deriving DecidableEq, Repr

/-- The points of `write_dirty_pages`. -/
inductive SyncPc where
  | fill (cpus : List ℕ) (h : MinHeap)
  | min (h : MinHeap) (pgs : List PageId)
  | pull (hn : HeapNode) (h : MinHeap) (pgs : List PageId)
  | clear (p : PageId) (h : MinHeap) (pgs : List PageId)
  | remove (p : PageId) (h : MinHeap) (pgs : List PageId)
  | enqueue (p : PageId) (h : MinHeap) (pgs : List PageId)
  | write (h : MinHeap) (pgs : List PageId)
  | unlock (h : MinHeap) (todo : List PageId)

/-- The next step of a thread. A purge that a fault has made returns to the fault. -/
inductive Pc where
  | idle
  | get (r : Req) (x : GetPc)
  | mkwrite (r : Req) (p : PageId) (x : MkPc)
  | purge (ret : Option Req) (x : PurgePc)
  | evict (x : EvictPc)
  | sync (a : SyncArgs) (x : SyncPc)

/-- The thread is between calls. -/
def Pc.isIdle : Pc → Bool
  | .idle => true
  | _ => false

/-- The request of a fault that is about to return a page, and the page. -/
def Pc.obtained : Pc → Option (Req × PageId)
  | .get r (.done p) => some (r, p)
  | _ => none

lemma Pc.obtained_eq_some {x : Pc} {r : Req} {p : PageId} :
    x.obtained = some (r, p) ↔ x = .get r (.done p) := by
  cases x with
  | get r' y => cases y <;> simp [Pc.obtained]
  | _ => simp [Pc.obtained]

/-- The calls that a thread can make. -/
inductive Task where
  | getpage (vma : VmaId) (i : ℕ)
  | mkwrite (vma : VmaId) (i : ℕ)
  | purge (qid : ℕ)
  | evict
  | sync (cb : Cleanup) (v : PvdId)
  deriving DecidableEq, Repr

/-- What the environment decides in a step: the NUMA node, the random queue, the processor and
the outcome of a read. -/
structure Choice (C : Type*) where
  node : ℕ
  rnd : ℕ
  cpu : ℕ
  read : State.ReadResult C

namespace State

variable (e : Env C) (s : State C)

/-! ### The start of a call -/

/-- `perma_getpage` up to the first lookup. -/
def startGetpage (vma : VmaId) (i : ℕ) : Except Halt Pc :=
  let vmf := s.vmFault vma i
  match s.vmaPvd vma with
  | none => .error .nullDeref
  | some v =>
    if vmf.address < (s.vmas vma).vmStart ∨ (s.vmas vma).vmEnd ≤ vmf.address then .error .efault
    else if numPages vmf.pgoff (int32 (s.devPages (s.pvds v).bk)) ≠ 1 then .error .nullDeref
    else .ok (.get ⟨vmf, v⟩ .lookup)

/-- A write fault on the page that an entry maps. -/
def startMkwrite (vma : VmaId) (i : ℕ) : Except Halt Pc :=
  let vmf := s.vmFault vma i
  match s.pte (vma, vmf.address), s.vmaPvd vma with
  | .none, _ => .error .notIssued
  | .map _ _, none => .error .nullDeref
  | .map p _, some v => .ok (.mkwrite ⟨vmf, v⟩ p .lock)

/-- The point where a thread starts a call. A round of an evictor starts with its check of the
sizes of the dirty queues. -/
def start (t : Tid) : Task → Except Halt Pc
  | .getpage vma i => s.startGetpage vma i
  | .mkwrite vma i => s.startMkwrite vma i
  | .purge qid => .ok (.purge none (.take qid purgeBatch []))
  | .evict =>
    match t with
    | .evictor id => if s.belowThreshold e then .error .notIssued else .ok (.evict (.take id))
    | .user _ => .error .notIssued
  | .sync cb v => .ok (.sync ⟨cb, v⟩ (.fill (List.range e.ncpus) minHeapCreate))

/-- The point where each call starts. -/
lemma start_inv {e : Env C} {s : State C} {t : Tid} {k : Task} {pc : Pc}
    (hs : s.start e t k = .ok pc) :
    (∃ vma i v, k = .getpage vma i ∧ s.vmaPvd vma = some v ∧
      pc = .get ⟨s.vmFault vma i, v⟩ .lookup) ∨
    (∃ vma i v p w, k = .mkwrite vma i ∧ s.vmaPvd vma = some v ∧
      s.pte (vma, (s.vmFault vma i).address) = .map p w ∧
      pc = .mkwrite ⟨s.vmFault vma i, v⟩ p .lock) ∨
    (∃ qid, k = .purge qid ∧ pc = .purge none (.take qid purgeBatch [])) ∨
    (∃ id, k = .evict ∧ t = .evictor id ∧ pc = .evict (.take id)) ∨
    ∃ cb v, k = .sync cb v ∧ pc = .sync ⟨cb, v⟩ (.fill (List.range e.ncpus) minHeapCreate) := by
  cases k with
  | getpage vma i =>
    simp only [start, startGetpage] at hs
    split at hs
    · exact absurd hs (by simp)
    · rename_i v hv
      split_ifs at hs
      exact Or.inl ⟨vma, i, v, rfl, hv, (Except.ok.inj hs).symm⟩
  | mkwrite vma i =>
    simp only [start, startMkwrite] at hs
    split at hs
    · exact absurd hs (by simp)
    · exact absurd hs (by simp)
    · rename_i p w v hp hv
      exact Or.inr (Or.inl ⟨vma, i, v, p, w, rfl, hv, hp, (Except.ok.inj hs).symm⟩)
  | purge qid => exact Or.inr (Or.inr (Or.inl ⟨qid, rfl, (Except.ok.inj hs).symm⟩))
  | evict =>
    simp only [start] at hs
    split at hs
    · rename_i id
      split_ifs at hs
      exact Or.inr (Or.inr (Or.inr (Or.inl ⟨id, rfl, rfl, (Except.ok.inj hs).symm⟩)))
    · exact absurd hs (by simp)
  | sync cb v => exact Or.inr (Or.inr (Or.inr (Or.inr ⟨cb, v, rfl, (Except.ok.inj hs).symm⟩)))

/-! ### The steps -/

/-- `perma_getpage` -/
def stepGet (c : Choice C) (r : Req) : GetPc → Except Halt (State C × Pc)
  | .lookup =>
    match s.fmapRadixLookup e r.pvd r.vmf.pgoff with
    | none => .ok (s, .get r .alloc)
    | some p => .ok (s, .get r (.lock p))
  | .alloc =>
    match s.allocPageLock e c.node r.vmf.pgoff r.pvd with
    | (none, s) => .ok (s, .purge (some r) (.take (c.rnd % numQueues) purgeBatch []))
    | (some p, s) => .ok (s, .get r (.fresh p))
  -- the result of this attempt to lock is not looked at
  | .fresh p => .ok ((s.trylockTp p ulongMax).2, .get r (.insert p))
  | .insert p =>
    match s.fmapRadixInsert e r.pvd r.vmf.pgoff p with
    | (true, s) => .ok (s, .get r (.enqueue p))
    | (false, s) => .ok (s, .get r (.rollback p))
  | .rollback p => .ok (s.freePageLock p, .get r .lookup)
  | .enqueue p => .ok (s.insertPage p false, .get r (.io p))
  | .io p => .ok (s.dmapDoPageIo r.pvd r.vmf.pgoff p c.read, .get r (.done p))
  | .lock p =>
    match s.trylockTp p ulongMax with
    | (0, s) => .ok (s, .get r (.valid p))
    | (_, s) => .ok (s, .get r .lookup)
  | .valid p => if (s.pages p).pageValid then .ok (s, .get r (.done p)) else .error .spin
  | .done p => (s.dmapAddOrUpdateRmap r.vmf p c.cpu).map fun s => (s, .get r (.map p))
  | .map p => .ok (s.finishFault r.vmf p, .idle)

/-- At the end of a write fault the kernel makes the entry writable, if it still maps the page. -/
def finishMkwrite (vmf : VmFault) (p : PageId) : State C :=
  let s := match s.pte (vmf.vma, vmf.address) with
    | .map q _ => if q = p then s.setPte vmf.vma vmf.address (.map p true) else s
    | .none => s
  s.unlockTp p

/-- `perma_page_mkwrite` -/
def stepMkwrite (r : Req) (p : PageId) : MkPc → Except Halt (State C × Pc)
  | .lock =>
    match s.trylockTp p r.vmf.pgoff with
    | (0, s) => .ok (s, .mkwrite r p .dirty)
    | (-1, s) => .ok (s, .mkwrite r p .lock)
    | (_, s) => .ok (s, .idle)
  | .dirty =>
    if (s.pages p).isDirty then .ok (s, .mkwrite r p .map)
    else if (s.pages p).bufferId ≠ .biClean then .error .bug
    else .ok (s.setDirty p true, .mkwrite r p .insert)
  | .insert => .ok (s.treeInsert e .dirty r.pvd (s.pages p).index p, .mkwrite r p .remove)
  | .remove => .ok (s.remove (cleanQueue (s.pages p).index) p, .mkwrite r p .enqueue)
  | .enqueue => .ok ((s.enqueue (dirtyQueue (s.pages p).index) p).2, .mkwrite r p .map)
  | .map => .ok (s.finishMkwrite r.vmf p, .idle)

/-- Where a purge returns to. -/
def purgeReturn : Option Req → Pc
  | some r => .get r .lookup
  | none => .idle

/-- `try_purge_pages_fast` -/
def stepPurge (ret : Option Req) : PurgePc → Except Halt (State C × Pc)
  | .take qid (n + 1) pgs =>
    match s.dequeueIf (.clean qid) deq with
    | (none, s) => .ok (s, .purge ret (.take qid n pgs))
    | (some p, s) => .ok (s, .purge ret (.delete qid n pgs p))
  | .take _ 0 pgs => .ok (s, .purge ret (.free pgs))
  | .delete qid n pgs p =>
    match (s.pages p).pvd with
    | none => .error .nullDeref
    | some v =>
      let index := (s.pages p).index
      .ok (s.treeErase ⟨.rdx, v, index % e.ncpus⟩ index, .purge ret (.unmap qid n pgs p))
  | .unmap qid n pgs p => .ok (s.removeMappings p, .purge ret (.take qid n (pgs ++ [p])))
  | .free (p :: pgs) => .ok (s.freePageLock p, .purge ret (.free pgs))
  | .free [] => .ok (s, purgeReturn ret)

/-- `evictor_thread` -/
def stepEvict : EvictPc → Except Halt (State C × Pc)
  | .take id =>
    match s.dequeueIf (.dirty id) evDeq with
    | (none, s) => .ok (s, .idle)
    | (some p, s) => .ok (s, .evict (.untree id p))
  | .untree id p =>
    match (s.pages p).pvd with
    | none => .error .nullDeref
    | some v =>
      .ok (s.removeFromDirtyTree e p,
        .evict (.scan ⟨id, v, collectIters, (s.pages p).index + 1, [p]⟩))
  | .scan c =>
    if c.iter = 0 ∨ 512 ≤ c.pgs.length ∨ (c.offset >>> 9) % evictorThreads ≠ c.id then
      .ok (s, .evict (.clear c.pvd c.pgs))
    else
      match s.treeLookup e .dirty c.pvd c.offset with
      | none => .ok (s, .evict (.scan (c.next c.pgs)))
      | some q =>
        .ok (s.treeErase ⟨.dirty, c.pvd, c.offset % e.ncpus⟩ c.offset, .evict (.grab c q))
  | .grab c q =>
    match s.removeIf (.dirty c.id) q evDeq with
    | (true, s) => .ok (s, .evict (.scan (c.next (c.pgs ++ [q]))))
    | (false, s) => .ok (s, .evict (.back c q))
  | .back c q =>
    .ok (s.treeInsert e .dirty c.pvd (s.pages q).index q, .evict (.scan (c.next c.pgs)))
  | .clear v pgs => .ok (pgs.foldl clearMappings s, .evict (.write v pgs))
  | .write v pgs => .ok (s.writePages e v pgs, .evict (.insert v [] pgs))
  | .insert v done (p :: todo) => .ok (s.insertPage p true, .evict (.insert v (done ++ [p]) todo))
  | .insert _ done [] => .ok (s, .evict (.unlock done))
  | .unlock (p :: todo) => .ok (s.unlockTp p, .evict (.unlock todo))
  | .unlock [] => .ok (s, .idle)

/-- One pass of the loop that takes a page out of a dirty tree: the tree is empty (`none`), its
first page cannot be locked (`false`), or the page is in the heap (`true`). -/
def pullOnce (v : PvdId) (cpu : ℕ) (h : MinHeap) :
    Except Halt (Option Bool × State C × MinHeap) :=
  match (s.trees ⟨.dirty, v, cpu⟩).first? with
  | none => .ok (none, s, h)
  | some (k, p) =>
    match s.trylockTp p ulongMax with
    | (0, s) =>
      match minHeapInsert h ⟨cpu, (s.pages p).index, p⟩ with
      | .error x => .error x
      | .ok h => .ok (some true, s.treeErase ⟨.dirty, v, cpu⟩ k, h)
    | (_, s) => .ok (some false, s, h)

/-- The callback on a page: only that of an fsync write protects it first. -/
def startCleanup (a : SyncArgs) (p : PageId) (h : MinHeap) (pgs : List PageId) : Pc :=
  match a.cb with
  | .fsync => .sync a (.clear p h pgs)
  | .release => .sync a (.remove p h pgs)

/-- `write_dirty_pages` -/
def stepSync (a : SyncArgs) : SyncPc → Except Halt (State C × Pc)
  | .fill (cpu :: cpus) h =>
    match s.pullOnce a.pvd cpu h with
    | .error x => .error x
    | .ok (some false, s, h) => .ok (s, .sync a (.fill (cpu :: cpus) h))
    | .ok (_, s, h) => .ok (s, .sync a (.fill cpus h))
  | .fill [] h => .ok (s, .sync a (.min h []))
  | .min h pgs =>
    if h.size = 0 then
      if pgs = [] then .ok (s, .idle) else .ok (s, .sync a (.write h pgs))
    else
      match minHeapDeleteMin h with
      | (hn, h) => .ok (s, .sync a (.pull hn h pgs))
  | .pull hn h pgs =>
    match s.pullOnce a.pvd hn.cpu h with
    | .error x => .error x
    | .ok (some false, s, h) => .ok (s, .sync a (.pull hn h pgs))
    | .ok (_, s, h) => .ok (s, startCleanup a hn.p h pgs)
  | .clear p h pgs => .ok (s.clearMappings p, .sync a (.remove p h pgs))
  | .remove p h pgs =>
    .ok (s.remove (dirtyQueue (s.pages p).index) p, .sync a (.enqueue p h pgs))
  | .enqueue p h pgs =>
    let s := (s.enqueue (cleanQueue (s.pages p).index) p).2.setDirty p false
    if (pgs ++ [p]).length = 512 then .ok (s, .sync a (.write h (pgs ++ [p])))
    else .ok (s, .sync a (.min h (pgs ++ [p])))
  | .write h pgs => .ok (s.writePages e a.pvd pgs, .sync a (.unlock h pgs))
  | .unlock h (p :: todo) => .ok (s.unlockTp p, .sync a (.unlock h todo))
  | .unlock h [] => .ok (s, .sync a (.min h []))

/-- One step of a thread. -/
def stepThread (c : Choice C) : Pc → Except Halt (State C × Pc)
  | .idle => .error .notIssued
  | .get r x => s.stepGet e c r x
  | .mkwrite r p x => s.stepMkwrite e r p x
  | .purge ret x => s.stepPurge e ret x
  | .evict x => s.stepEvict e x
  | .sync a x => s.stepSync e a x

/-- The blocks that a step hands to the device. -/
def blocks : Pc → List (BlockWrite C)
  | .evict (.write v pgs) => e.writeAsync (s.pvds v).type s pgs
  | .sync a (.write _ pgs) => e.writeAsync (s.pvds a.pvd).type s pgs
  | _ => []

end State

/-! ### The call that a step belongs to -/

/-- The calls, with the arguments that stay the same. -/
inductive Frame where
  | fault (r : Req)
  | mkwrite (r : Req) (p : PageId)
  | purge
  | evict
  | sync (a : SyncArgs)
  deriving DecidableEq, Repr

/-- The call of the user or the evictor that the thread is in. -/
def Pc.frame : Pc → Option Frame
  | .idle => none
  | .get r _ => some (.fault r)
  | .mkwrite r p _ => some (.mkwrite r p)
  | .purge (some r) _ => some (.fault r)
  | .purge none _ => some .purge
  | .evict _ => some .evict
  | .sync a _ => some (.sync a)

namespace State

variable {e : Env C} {s s' : State C} {c : Choice C} {pc pc' : Pc}

/-- The steps of `write_dirty_pages` that look at a dirty tree. -/
lemma stepSync_fill_cons {a : SyncArgs} {cpu : ℕ} {cpus : List ℕ} {h : MinHeap}
    (hs : s.stepSync e a (.fill (cpu :: cpus) h) = .ok (s', pc')) :
    ∃ b h', s.pullOnce a.pvd cpu h = .ok (b, s', h') ∧
      pc' = .sync a (.fill (if b = some false then cpu :: cpus else cpus) h') := by
  simp only [stepSync] at hs
  cases hpull : s.pullOnce a.pvd cpu h with
  | error x => simp [hpull] at hs
  | ok y =>
    obtain ⟨b, s₁, h'⟩ := y
    rcases b with _ | _ | _
    all_goals
      simp only [hpull] at hs
      obtain ⟨rfl, rfl⟩ := Prod.mk.inj (Except.ok.inj hs)
      exact ⟨_, h', rfl, rfl⟩

lemma stepSync_pull {a : SyncArgs} {n : HeapNode} {h : MinHeap} {pgs : List PageId}
    (hs : s.stepSync e a (.pull n h pgs) = .ok (s', pc')) :
    ∃ b h', s.pullOnce a.pvd n.cpu h = .ok (b, s', h') ∧
      pc' = if b = some false then .sync a (.pull n h' pgs) else startCleanup a n.p h' pgs := by
  simp only [stepSync] at hs
  cases hpull : s.pullOnce a.pvd n.cpu h with
  | error x => simp [hpull] at hs
  | ok y =>
    obtain ⟨b, s₁, h'⟩ := y
    rcases b with _ | _ | _
    all_goals
      simp only [hpull] at hs
      obtain ⟨rfl, rfl⟩ := Prod.mk.inj (Except.ok.inj hs)
      exact ⟨_, h', rfl, rfl⟩

lemma frame_stepGet {r : Req} {x : GetPc} (hs : s.stepGet e c r x = .ok (s', pc')) :
    pc'.frame = some (.fault r) ∨ pc' = .idle := by
  cases x with
  | lookup | alloc | insert p | lock p =>
    simp only [stepGet] at hs
    split at hs
    all_goals
      rw [← (Prod.mk.inj (Except.ok.inj hs)).2]
      exact Or.inl rfl
  | valid p =>
    simp only [stepGet] at hs
    split_ifs at hs
    rw [← (Prod.mk.inj (Except.ok.inj hs)).2]
    exact Or.inl rfl
  | done p =>
    simp only [stepGet] at hs
    obtain ⟨s₁, hr, hs⟩ := Except.map_eq_ok.mp hs
    rw [← (Prod.mk.inj hs).2]
    exact Or.inl rfl
  | map p =>
    rw [← (Prod.mk.inj (Except.ok.inj hs)).2]
    exact Or.inr rfl
  | fresh p | rollback p | enqueue p | io p =>
    rw [← (Prod.mk.inj (Except.ok.inj hs)).2]
    exact Or.inl rfl

lemma frame_stepMkwrite {r : Req} {p : PageId} {x : MkPc}
    (hs : s.stepMkwrite e r p x = .ok (s', pc')) :
    pc'.frame = some (.mkwrite r p) ∨ pc' = .idle := by
  cases x with
  | lock =>
    simp only [stepMkwrite] at hs
    split at hs
    all_goals
      rw [← (Prod.mk.inj (Except.ok.inj hs)).2]
      simp [Pc.frame]
  | dirty =>
    simp only [stepMkwrite] at hs
    split_ifs at hs
    all_goals
      rw [← (Prod.mk.inj (Except.ok.inj hs)).2]
      exact Or.inl rfl
  | map =>
    rw [← (Prod.mk.inj (Except.ok.inj hs)).2]
    exact Or.inr rfl
  | insert | remove | enqueue =>
    rw [← (Prod.mk.inj (Except.ok.inj hs)).2]
    exact Or.inl rfl

lemma frame_stepPurge {ret : Option Req} {x : PurgePc}
    (hs : s.stepPurge e ret x = .ok (s', pc')) :
    pc'.frame = (Pc.purge ret x).frame ∨ pc' = .idle := by
  have hret : ∀ y, (Pc.purge ret y).frame = (Pc.purge ret x).frame := by
    intro y
    cases ret <;> rfl
  cases x with
  | take qid n pgs =>
    cases n with
    | zero =>
      rw [← (Prod.mk.inj (Except.ok.inj hs)).2]
      exact Or.inl (hret _)
    | succ n =>
      simp only [stepPurge] at hs
      split at hs
      all_goals
        rw [← (Prod.mk.inj (Except.ok.inj hs)).2]
        exact Or.inl (hret _)
  | delete qid n pgs p =>
    simp only [stepPurge] at hs
    split at hs
    · exact absurd hs (by simp)
    · rw [← (Prod.mk.inj (Except.ok.inj hs)).2]
      exact Or.inl (hret _)
  | unmap qid n pgs p =>
    rw [← (Prod.mk.inj (Except.ok.inj hs)).2]
    exact Or.inl (hret _)
  | free pgs =>
    cases pgs with
    | nil =>
      rw [← (Prod.mk.inj (Except.ok.inj hs)).2]
      cases ret
      · exact Or.inr rfl
      · exact Or.inl rfl
    | cons p pgs =>
      rw [← (Prod.mk.inj (Except.ok.inj hs)).2]
      exact Or.inl (hret _)

lemma frame_stepEvict {x : EvictPc} (hs : s.stepEvict e x = .ok (s', pc')) :
    pc'.frame = some .evict ∨ pc' = .idle := by
  cases x with
  | take id =>
    simp only [stepEvict] at hs
    split at hs
    all_goals
      rw [← (Prod.mk.inj (Except.ok.inj hs)).2]
      simp [Pc.frame]
  | untree id p =>
    simp only [stepEvict] at hs
    split at hs
    · exact absurd hs (by simp)
    · rw [← (Prod.mk.inj (Except.ok.inj hs)).2]
      exact Or.inl rfl
  | scan c =>
    simp only [stepEvict] at hs
    split_ifs at hs
    · rw [← (Prod.mk.inj (Except.ok.inj hs)).2]
      exact Or.inl rfl
    · split at hs
      all_goals
        rw [← (Prod.mk.inj (Except.ok.inj hs)).2]
        exact Or.inl rfl
  | grab c q =>
    simp only [stepEvict] at hs
    split at hs
    all_goals
      rw [← (Prod.mk.inj (Except.ok.inj hs)).2]
      exact Or.inl rfl
  | back c q | clear v pgs | write v pgs =>
    rw [← (Prod.mk.inj (Except.ok.inj hs)).2]
    exact Or.inl rfl
  | insert v done todo =>
    cases todo
    all_goals
      rw [← (Prod.mk.inj (Except.ok.inj hs)).2]
      exact Or.inl rfl
  | unlock todo =>
    cases todo
    all_goals
      rw [← (Prod.mk.inj (Except.ok.inj hs)).2]
      simp [Pc.frame]

lemma frame_stepSync {a : SyncArgs} {x : SyncPc} (hs : s.stepSync e a x = .ok (s', pc')) :
    pc'.frame = some (.sync a) ∨ pc' = .idle := by
  cases x with
  | fill cpus h =>
    cases cpus with
    | nil =>
      rw [← (Prod.mk.inj (Except.ok.inj hs)).2]
      exact Or.inl rfl
    | cons cpu cpus =>
      simp only [stepSync] at hs
      split at hs
      · exact absurd hs (by simp)
      all_goals
        rw [← (Prod.mk.inj (Except.ok.inj hs)).2]
        exact Or.inl rfl
  | min h pgs =>
    simp only [stepSync] at hs
    split_ifs at hs
    all_goals
      rw [← (Prod.mk.inj (Except.ok.inj hs)).2]
      simp [Pc.frame]
  | pull hn h pgs =>
    simp only [stepSync] at hs
    split at hs
    · exact absurd hs (by simp)
    · rw [← (Prod.mk.inj (Except.ok.inj hs)).2]
      exact Or.inl rfl
    · rw [← (Prod.mk.inj (Except.ok.inj hs)).2, startCleanup]
      split <;> exact Or.inl rfl
  | enqueue p h pgs =>
    simp only [stepSync] at hs
    split_ifs at hs
    all_goals
      rw [← (Prod.mk.inj (Except.ok.inj hs)).2]
      exact Or.inl rfl
  | clear p h pgs | remove p h pgs | write h pgs =>
    rw [← (Prod.mk.inj (Except.ok.inj hs)).2]
    exact Or.inl rfl
  | unlock h todo =>
    cases todo
    all_goals
      rw [← (Prod.mk.inj (Except.ok.inj hs)).2]
      exact Or.inl rfl

/-- A thread stays in its call until it returns. -/
lemma frame_stepThread (hs : s.stepThread e c pc = .ok (s', pc')) :
    pc'.frame = pc.frame ∨ pc' = .idle := by
  cases pc with
  | idle => exact absurd hs (by simp [stepThread])
  | get r x => exact frame_stepGet hs
  | mkwrite r p x => exact frame_stepMkwrite hs
  | purge ret x => exact frame_stepPurge hs
  | evict x => exact frame_stepEvict hs
  | sync a x => exact frame_stepSync hs

end State

/-! ### The machine -/

/-- The shared state, the points of the threads, and the blocks written so far. -/
structure Machine (C : Type*) where
  st : State C
  pc : Tid → Pc
  log : List (BlockWrite C)

/-- What a thread does next. -/
inductive Act (C : Type*) where
  | start (k : Task)
  | step (c : Choice C)

namespace Machine

/-- No thread is in a call. -/
def quiescent (s : State C) : Machine C := ⟨s, fun _ => .idle, []⟩

/-- One step of thread `t`. -/
def next (e : Env C) (m : Machine C) (t : Tid) : Act C → Except Halt (Machine C)
  | .start k =>
    match m.pc t with
    | .idle => (m.st.start e t k).map fun pc => { m with pc := Function.update m.pc t pc }
    | _ => .error .notIssued
  | .step c =>
    (m.st.stepThread e c (m.pc t)).map fun x =>
      ⟨x.1, Function.update m.pc t x.2, m.log ++ m.st.blocks e (m.pc t)⟩

/-- A step of some thread. -/
def Steps (e : Env C) (m : Machine C) (l : Tid × Act C) (m' : Machine C) : Prop :=
  m.next e l.1 l.2 = .ok m'

variable {e : Env C} {m m' : Machine C} {s' s'' : State C} {t : Tid} {pc' pc'' : Pc}
  {log log' : List (BlockWrite C)}

/-- Thread `t` is at a new point, in a new state. -/
def put (m : Machine C) (t : Tid) (s : State C) (pc : Pc) (log : List (BlockWrite C)) :
    Machine C :=
  ⟨s, Function.update m.pc t pc, log⟩

@[simp] lemma put_st : (m.put t s' pc' log).st = s' := rfl

@[simp] lemma put_log : (m.put t s' pc' log).log = log := rfl

@[simp] lemma put_pc_self : (m.put t s' pc' log).pc t = pc' := Function.update_self _ _ _

lemma put_pc_of_ne {u : Tid} (hu : u ≠ t) : (m.put t s' pc' log).pc u = m.pc u :=
  Function.update_of_ne hu _ _

@[simp] lemma put_put : (m.put t s' pc' log).put t s'' pc'' log' = m.put t s'' pc'' log' := by
  simp only [put, Function.update_idem]

/-- A step starts a call of an idle thread, or continues one. -/
lemma steps_cases {l : Tid × Act C} (hs : Steps e m l m') :
    (∃ k pc', l.2 = .start k ∧ m.pc l.1 = .idle ∧ m.st.start e l.1 k = .ok pc' ∧
      m' = m.put l.1 m.st pc' m.log) ∨
    ∃ c s' pc', l.2 = .step c ∧ m.st.stepThread e c (m.pc l.1) = .ok (s', pc') ∧
      m' = m.put l.1 s' pc' (m.log ++ m.st.blocks e (m.pc l.1)) := by
  obtain ⟨t, act⟩ := l
  cases act with
  | start k =>
    simp only [Steps, next] at hs
    split at hs
    · rename_i hidle
      obtain ⟨pc', hk, hs⟩ := Except.map_eq_ok.mp hs
      exact Or.inl ⟨k, pc', rfl, hidle, hk, hs.symm⟩
    · exact absurd hs (by simp)
  | step c =>
    simp only [Steps, next] at hs
    obtain ⟨y, hk, hs⟩ := Except.map_eq_ok.mp hs
    exact Or.inr ⟨c, y.1, y.2, rfl, hk, hs.symm⟩

/-- The machine after a sequence of steps. -/
def nextAll (e : Env C) (m : Machine C) (ls : List (Tid × Act C)) : Option (Machine C) :=
  ls.foldlM (fun m l => (m.next e l.1 l.2).toOption) m

lemma run_nextAll {ls : List (Tid × Act C)}
    (h : nextAll e m ls = some m') : Run (Steps e) m ls m' :=
  Run.of_foldlM (fun _ _ _ hs => Except.toOption_eq_some.mp hs) h

/-- One node, queue and CPU, and a read that succeeds. -/
def plain : Choice ℕ := ⟨0, 0, 0, .full⟩

/-- `n` steps of a thread. -/
def steps (t : Tid) (n : ℕ) : List (Tid × Act ℕ) := List.replicate n (t, .step plain)

end Machine

end FastMap
