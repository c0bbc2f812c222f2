import FastMap.LockSections
import FastMap.Permissions

/-!
# The locks of the calls

The operations on locks that a thread does from the start of a call to its end, whatever the other
threads do, are those that `SpinLocks` gives the call. `Within` says how far a thread has come: the
operations of its call so far, at each point of the call. What a thread reads of a page at two
points is the same while it holds the page.
-/

namespace FastMap

variable {C : Type*}

open LockOp LockOps

/-! ### The operations so far -/

namespace LockOps

variable {ncpus : ℕ} {v : PvdId} {fsync : Bool}

lemma waitTp_succ (p : PageId) (tries : ℕ) :
    waitTp p (tries + 1) = waitTp p tries ++ LockOps.trylockTp p := by
  simp [waitTp, List.replicate_succ']

/-- A page in the list of a purge, with the CPU that it is freed to. -/
lemma exists_freed {qid : ℕ} {turns : List PurgeTurn} {before after : List PageRef} {r : PageRef}
    (h : turns.filterMap PurgeTurn.found = before ++ r :: after) (cpuid : ℕ) :
    ∃ turns' : List PurgeTurn, turns'.filterMap PurgeTurn.found =
      before ++ { r with cpuid := cpuid } :: after ∧
      turns'.flatMap (PurgeTurn.ops ncpus qid) = turns.flatMap (PurgeTurn.ops ncpus qid) := by
  obtain ⟨l, l', rfl, hl, hl'⟩ := List.filterMap_eq_append_iff.mp h
  obtain ⟨x, y, z, rfl, hx, hy, hz⟩ := List.filterMap_eq_cons_iff.mp hl'
  refine ⟨l ++ (x ++ { y with found := some { r with cpuid := cpuid } } :: z), ?_, ?_⟩
  · rw [List.filterMap_append, List.filterMap_append, hl, List.filterMap_eq_nil_iff.mpr hx,
      List.filterMap_cons_some (f := PurgeTurn.found) rfl, hz]
    rfl
  · simp [PurgeTurn.ops, hy, LockOps.removeMappings]

/-- The first half of a callback. -/
def protect (fsync : Bool) (r : PageRef) : LockOps :=
  if fsync then LockOps.clearMappings r else []

/-- One more turn of `write_dirty_pages`. -/
lemma writeDirtyPages_turn (fills : List (ℕ × List (Option PageId))) (turns : List DrainTurn)
    (y : DrainTurn) : writeDirtyPages fsync ⟨v, fills, turns ++ [y], []⟩ =
      writeDirtyPages fsync ⟨v, fills, turns, []⟩ ++ y.ops fsync v := by
  simp [writeDirtyPages]

/-- One more pass over the trees at the start of `write_dirty_pages`. -/
lemma writeDirtyPages_fill (fills : List (ℕ × List (Option PageId)))
    (y : ℕ × List (Option PageId)) : writeDirtyPages fsync ⟨v, fills ++ [y], [], []⟩ =
      writeDirtyPages fsync ⟨v, fills, [], []⟩ ++ pullTree v y.1 y.2 := by
  simp [writeDirtyPages]

variable (fsync v) in
/-- The pages that are unlocked after a write belong to the last turn. -/
lemma exists_written (fills : List (ℕ × List (Option PageId))) {turns : List DrainTurn}
    (h : turns ≠ []) (p : PageId) : ∃ turns' ≠ [],
      writeDirtyPages fsync ⟨v, fills, turns', []⟩ =
        writeDirtyPages fsync ⟨v, fills, turns, []⟩ ++ LockOps.unlockTp p := by
  obtain ⟨init, y, rfl⟩ := List.eq_nil_or_concat' turns |>.resolve_left h
  refine ⟨init ++ [{ y with written := y.written ++ [p] }], by simp, ?_⟩
  rw [writeDirtyPages_turn, writeDirtyPages_turn]
  simp [DrainTurn.ops]

end LockOps

section within

variable (ncpus : ℕ)

/-- `perma_getpage` -/
def GetPc.Within (r : Req) : GetPc → LockOps → Prop
  | .lookup, x | .alloc, x | .lock _, x =>
    ∃ retries : List GetRetry, x = retries.flatMap (GetRetry.ops ncpus)
  | .fresh p, x => ∃ (retries : List GetRetry) (cpus : List ℕ),
      x = retries.flatMap (GetRetry.ops ncpus) ++ LockOps.allocPageLock cpus (some p)
  | .insert p, x => ∃ (retries : List GetRetry) (cpus : List ℕ),
      x = retries.flatMap (GetRetry.ops ncpus) ++
        (LockOps.allocPageLock cpus (some p) ++ LockOps.trylockTp p)
  | .rollback p, x | .enqueue p, x => ∃ (retries : List GetRetry) (cpus : List ℕ),
      x = retries.flatMap (GetRetry.ops ncpus) ++
        (LockOps.allocPageLock cpus (some p) ++ LockOps.trylockTp p ++
          LockOps.fmapRadixInsert ncpus r.pvd r.vmf.pgoff)
  | .io p, x | .valid p, x | .done p, x => ∃ (retries : List GetRetry) (last : GetEnd),
      last.page = p ∧ x = retries.flatMap (GetRetry.ops ncpus) ++ last.ops ncpus
  | .map _, x => ∃ retries last new, x = permaGetpage ncpus retries last new

/-- `perma_page_mkwrite` -/
def MkPc.Within (r : Req) (p : PageId) : MkPc → LockOps → Prop
  | .lock, x | .dirty, x | .insert, x => ∃ tries, x = waitTp p tries
  | .remove, x => ∃ tries, x = waitTp p tries ++ onTree ncpus .dirty r.pvd r.vmf.pgoff
  | .enqueue, x => ∃ tries, x = waitTp p tries ++ (onTree ncpus .dirty r.pvd r.vmf.pgoff ++
      critical (.fifoLock (cleanQueue r.vmf.pgoff)) [])
  | .map, x => ∃ tries clean, x = permaPageMkwrite ncpus r.pvd p tries clean

/-- `try_purge_pages_fast` -/
def PurgePc.Within : PurgePc → LockOps → Prop
  | .take qid _ pgs, x => ∃ turns : List PurgeTurn,
      (turns.filterMap PurgeTurn.found).map PageRef.page = pgs ∧
        x = turns.flatMap (PurgeTurn.ops ncpus qid)
  | .delete qid _ pgs _, x => ∃ (turns : List PurgeTurn) (tried : Option PageId),
      (turns.filterMap PurgeTurn.found).map PageRef.page = pgs ∧
        x = turns.flatMap (PurgeTurn.ops ncpus qid) ++ takeIf (.clean qid) tried
  | .unmap qid _ pgs p, x => ∃ (turns : List PurgeTurn) (tried : Option PageId) (r : PageRef),
      (turns.filterMap PurgeTurn.found).map PageRef.page = pgs ∧ r.page = p ∧
        x = turns.flatMap (PurgeTurn.ops ncpus qid) ++
          (takeIf (.clean qid) tried ++ onTree ncpus .rdx r.pvd r.index)
  | .free pgs, x => ∃ (qid : ℕ) (turns : List PurgeTurn) (freed rest : List PageRef),
      turns.filterMap PurgeTurn.found = freed ++ rest ∧ rest.map PageRef.page = pgs ∧
        x = turns.flatMap (PurgeTurn.ops ncpus qid) ++ freed.flatMap LockOps.freePageLock

/-- A round of `evictor_thread` up to the end of the collection. -/
def Collects (id : ℕ) (v : PvdId) (x : LockOps) : Prop :=
  ∃ (tried : Option PageId) (first : PageRef) (scan : List ScanTurn), first.pvd = v ∧
    x = takeIf (.dirty id) tried ++ (LockOps.removeFromDirtyTree ncpus first ++
      scan.flatMap (ScanTurn.ops ncpus id v))

/-- `evictor_thread` -/
def EvictPc.Within : EvictPc → LockOps → Prop
  | .take _, x => x = []
  | .untree id _, x => ∃ tried, x = takeIf (.dirty id) tried
  | .scan d, x => Collects ncpus d.id d.pvd x
  | .grab d _, x => ∃ y, Collects ncpus d.id d.pvd y ∧ x = y ++ onTree ncpus .dirty d.pvd d.offset
  | .back d q, x => ∃ y, Collects ncpus d.id d.pvd y ∧
      x = y ++ (onTree ncpus .dirty d.pvd d.offset ++ takeIf (.dirty d.id) (some q))
  | .clear v _, x => ∃ id, Collects ncpus id v x
  | .write v pgs, x => ∃ id y, Collects ncpus id v y ∧ ∃ rs : List PageRef,
      rs.map PageRef.page = pgs ∧ x = y ++ rs.flatMap LockOps.clearMappings
  | .insert v done todo, x => ∃ id y, Collects ncpus id v y ∧ ∃ rs rs' : List PageRef,
      rs.map PageRef.page = done ∧ rs'.map PageRef.page = todo ∧
        x = y ++ ((rs ++ rs').flatMap LockOps.clearMappings ++ rs.flatMap LockOps.insertPage)
  | .unlock todo, x => ∃ id v y, Collects ncpus id v y ∧ ∃ (rs : List PageRef) (done : List PageId),
      rs.map PageRef.page = done ++ todo ∧
        x = y ++ (rs.flatMap LockOps.clearMappings ++ rs.flatMap LockOps.insertPage ++
          done.flatMap LockOps.unlockTp)

end within

/-- The callback clears the mappings. -/
def SyncArgs.fsync (a : SyncArgs) : Bool := decide (a.cb = .fsync)

/-- `write_dirty_pages` -/
def SyncPc.Within (s : State C) (a : SyncArgs) : SyncPc → LockOps → Prop
  | .fill _ _, x => ∃ fills, x = LockOps.writeDirtyPages a.fsync ⟨a.pvd, fills, [], []⟩
  | .min _ pgs, x => ∃ fills turns, (pgs ≠ [] → turns ≠ []) ∧
      x = LockOps.writeDirtyPages a.fsync ⟨a.pvd, fills, turns, []⟩
  | .pull n _ _, x => ∃ fills turns tried,
      x = LockOps.writeDirtyPages a.fsync ⟨a.pvd, fills, turns, []⟩ ++ pullTree a.pvd n.cpu tried
  | .clear _ _ _, x => a.fsync = true ∧ ∃ fills turns cpu tried,
      x = LockOps.writeDirtyPages a.fsync ⟨a.pvd, fills, turns, []⟩ ++ pullTree a.pvd cpu tried
  | .remove _ _ _, x => ∃ fills turns cpu tried r,
      x = LockOps.writeDirtyPages a.fsync ⟨a.pvd, fills, turns, []⟩ ++
        (pullTree a.pvd cpu tried ++ protect a.fsync r)
  | .enqueue p _ _, x => ∃ fills turns cpu tried r, r.index = (s.pages p).index ∧
      x = LockOps.writeDirtyPages a.fsync ⟨a.pvd, fills, turns, []⟩ ++
        (pullTree a.pvd cpu tried ++ protect a.fsync r ++
          critical (.fifoLock (dirtyQueue r.index)) [])
  | .write _ _, x | .unlock _ _, x => ∃ fills turns, turns ≠ [] ∧
      x = LockOps.writeDirtyPages a.fsync ⟨a.pvd, fills, turns, []⟩

/-- How far a thread has come in its call. Between two calls it has done nothing, or all of the last
one. -/
def Pc.Within (ncpus : ℕ) (s : State C) : Pc → LockOps → Prop
  | .idle, x => x = [] ∨ ∃ k : Call, x = k.ops ncpus
  | .get r y, x => y.Within ncpus r x
  | .mkwrite r p y, x => y.Within ncpus r p x
  | .purge none y, x => y.Within ncpus x
  | .purge (some _) y, x => ∃ (retries : List GetRetry) (cpus : List ℕ) (z : LockOps),
      y.Within ncpus z ∧ x = retries.flatMap (GetRetry.ops ncpus) ++
        (LockOps.allocPageLock cpus none ++ z)
  | .evict y, x => y.Within ncpus x
  | .sync a y, x => y.Within s a x

/-- A thread that comes to an end of its round has done the whole of it. -/
lemma Collects.evict {ncpus id : ℕ} {v : PvdId} {x : LockOps} (h : Collects ncpus id v x)
    (rs : List PageRef) : ∃ k : Call, x ++ (rs.flatMap LockOps.clearMappings ++
      rs.flatMap LockOps.insertPage ++ (rs.map PageRef.page).flatMap LockOps.unlockTp) =
        k.ops ncpus := by
  obtain ⟨tried, first, scan, rfl, rfl⟩ := h
  refine ⟨.evict id tried (some ⟨first, scan, rs⟩), ?_⟩
  simp [Call.ops, LockOps.evictorRound, List.flatMap_map]

@[simp] lemma Pc.within_scan {ncpus : ℕ} {s : State C} {d : Scan} {x : LockOps} :
    (Pc.evict (.scan d)).Within ncpus s x ↔ Collects ncpus d.id d.pvd x :=
  Iff.rfl

/-- One more offset. -/
lemma Collects.turn {ncpus : ℕ} {d : Scan} {x : LockOps} (h : Collects ncpus d.id d.pvd x)
    (y : ScanTurn) (pgs : List PageId) : Collects ncpus (d.next pgs).id (d.next pgs).pvd
      (x ++ y.ops ncpus d.id d.pvd) := by
  obtain ⟨tried, first, scan, hv, rfl⟩ := h
  exact ⟨tried, first, scan ++ [y], hv, by simp [Scan.next]⟩

/-! ### The steps of a call -/

namespace Machine

open State

variable {ptl : VmaId × ℕ → ℕ} {e : Env C} {m m' : Machine C} {s s' : State C} {t : Tid}
  {pc pc' : Pc} {c : Choice C} {p q : PageId} {ops : LockOps}

lemma Inv.within_stepGet (h : Inv e m) {r : Req} {x : GetPc} (hpc : m.pc t = .get r x)
    (hw : x.Within e.ncpus r ops) (hs : m.st.stepGet e c r x = .ok (s', pc')) :
    pc'.Within e.ncpus s' (ops ++ m.st.getSections e ptl c r x) := by
  cases x with
  | lookup =>
    obtain ⟨retries, rfl⟩ := hw
    simp only [State.stepGet] at hs
    split at hs
    all_goals
      rw [← (Prod.mk.inj (Except.ok.inj hs)).2]
      exact ⟨retries, List.append_nil _⟩
  | alloc =>
    obtain ⟨retries, rfl⟩ := hw
    simp only [State.stepGet] at hs
    split at hs
    all_goals
      rename_i heq
      rw [← (Prod.mk.inj (Except.ok.inj hs)).2]
    · refine ⟨retries, m.st.searchedNodes e (e.numaDv c.node), [], ⟨[], rfl, rfl⟩, ?_⟩
      rw [getSections, heq, List.append_nil]
    · exact ⟨retries, _, by rw [getSections, heq]⟩
  | fresh p =>
    obtain ⟨retries, cpus, rfl⟩ := hw
    rw [← (Prod.mk.inj (Except.ok.inj hs)).2]
    exact ⟨retries, cpus, List.append_assoc _ _ _⟩
  | insert p =>
    obtain ⟨retries, cpus, rfl⟩ := hw
    simp only [State.stepGet] at hs
    split at hs
    all_goals
      rw [← (Prod.mk.inj (Except.ok.inj hs)).2]
      exact ⟨retries, cpus, List.append_assoc _ _ _⟩
  | rollback p =>
    obtain ⟨retries, cpus, rfl⟩ := hw
    rw [← (Prod.mk.inj (Except.ok.inj hs)).2]
    refine ⟨retries ++ [.raced cpus ⟨p, r.pvd, r.vmf.pgoff, (m.st.pages p).cpuid, []⟩], ?_⟩
    simp [GetRetry.ops, getSections, LockOps.freePageLock, pageRef]
  | enqueue p =>
    obtain ⟨retries, cpus, rfl⟩ := hw
    have hk := ((h.page p).held (t := t) (by rw [hpc]; exact .inl (by simp [Pc.locks]))).2
    rw [hpc] at hk
    rw [← (Prod.mk.inj (Except.ok.inj hs)).2]
    refine ⟨retries, .miss cpus ⟨p, r.pvd, r.vmf.pgoff, 0, []⟩, rfl, ?_⟩
    simp [GetEnd.ops, getSections, LockOps.insertPage, pageRef, hk.2]
  | io p =>
    obtain ⟨retries, last, hlast, rfl⟩ := hw
    rw [← (Prod.mk.inj (Except.ok.inj hs)).2]
    exact ⟨retries, last, hlast, List.append_nil _⟩
  | lock p =>
    obtain ⟨retries, rfl⟩ := hw
    simp only [State.stepGet] at hs
    split at hs
    all_goals rw [← (Prod.mk.inj (Except.ok.inj hs)).2]
    · exact ⟨retries, .hit ⟨p, 0, 0, 0, []⟩, rfl, rfl⟩
    · exact ⟨retries ++ [.busy p], by simp [GetRetry.ops, getSections]⟩
  | valid p =>
    obtain ⟨retries, last, hlast, rfl⟩ := hw
    simp only [State.stepGet] at hs
    split_ifs at hs
    rw [← (Prod.mk.inj (Except.ok.inj hs)).2]
    exact ⟨retries, last, hlast, List.append_nil _⟩
  | done p =>
    obtain ⟨retries, last, rfl, rfl⟩ := hw
    simp only [State.stepGet] at hs
    obtain ⟨s₁, -, hs⟩ := Except.map_eq_ok.mp hs
    rw [← (Prod.mk.inj hs).2]
    exact ⟨retries, last, _, rfl⟩
  | map p =>
    obtain ⟨retries, last, new, rfl⟩ := hw
    rw [← (Prod.mk.inj (Except.ok.inj hs)).2]
    exact .inr ⟨.fault retries last new, List.append_nil _⟩

lemma Inv.within_stepMkwrite (h : Inv e m) {r : Req} {x : MkPc} (hpc : m.pc t = .mkwrite r p x)
    (hw : x.Within e.ncpus r p ops) (hs : m.st.stepMkwrite e r p x = .ok (s', pc')) :
    pc'.Within e.ncpus s' (ops ++ m.st.mkwriteSections e r p x) := by
  have hindex : x ≠ .lock → (m.st.pages p).index = r.vmf.pgoff := by
    intro hx
    have hk := ((h.page p).held (t := t) (by rw [hpc]; exact (holds_mkwrite_iff hx).mpr rfl)).2
    rw [hpc] at hk
    exact hk.2
  cases x with
  | lock =>
    obtain ⟨tries, rfl⟩ := hw
    have hmore := waitTp_succ p tries
    simp only [State.stepMkwrite] at hs
    split at hs
    all_goals rw [← (Prod.mk.inj (Except.ok.inj hs)).2]
    · exact ⟨tries + 1, hmore.symm⟩
    · exact ⟨tries + 1, hmore.symm⟩
    · refine .inr ⟨.mkwrite r.pvd p (tries + 1) none, ?_⟩
      rw [Call.ops, LockOps.permaPageMkwrite, hmore, Option.elim_none, List.append_nil]
      rfl
  | dirty =>
    obtain ⟨tries, rfl⟩ := hw
    simp only [State.stepMkwrite] at hs
    split_ifs at hs
    all_goals rw [← (Prod.mk.inj (Except.ok.inj hs)).2]
    · exact ⟨tries, none, rfl⟩
    · exact ⟨tries, List.append_nil _⟩
  | insert =>
    obtain ⟨tries, rfl⟩ := hw
    rw [← (Prod.mk.inj (Except.ok.inj hs)).2]
    refine ⟨tries, ?_⟩
    rw [mkwriteSections, hindex (by simp)]
  | remove =>
    obtain ⟨tries, rfl⟩ := hw
    rw [← (Prod.mk.inj (Except.ok.inj hs)).2]
    refine ⟨tries, ?_⟩
    rw [mkwriteSections, hindex (by simp), List.append_assoc]
  | enqueue =>
    obtain ⟨tries, rfl⟩ := hw
    rw [← (Prod.mk.inj (Except.ok.inj hs)).2]
    refine ⟨tries, some ⟨p, r.pvd, r.vmf.pgoff, 0, []⟩, ?_⟩
    simp [LockOps.permaPageMkwrite, LockOps.dmapDoTaggedPageWritable, LockOps.movePageC2d,
      mkwriteSections, hindex]
  | map =>
    obtain ⟨tries, clean, rfl⟩ := hw
    rw [← (Prod.mk.inj (Except.ok.inj hs)).2]
    exact .inr ⟨.mkwrite r.pvd p tries clean, List.append_nil _⟩

/-- A purge that a fault has made is one of its turns. -/
lemma within_purgeReturn {ret : Option Req}
    (hw : (Pc.purge ret (.free [])).Within e.ncpus s ops) :
    (purgeReturn ret).Within e.ncpus s' ops := by
  have hlast : ∀ {x}, (PurgePc.free []).Within e.ncpus x → ∃ qid turns,
      x = LockOps.tryPurgePagesFast e.ncpus qid turns := by
    rintro x ⟨qid, turns, freed, rest, hf, hrest, rfl⟩
    obtain rfl := List.map_eq_nil_iff.mp hrest
    rw [List.append_nil] at hf
    exact ⟨qid, turns, by rw [LockOps.tryPurgePagesFast, hf]⟩
  cases ret with
  | none =>
    obtain ⟨qid, turns, rfl⟩ := hlast hw
    exact .inr ⟨.purge qid turns, rfl⟩
  | some r =>
    obtain ⟨retries, cpus, z, hz, rfl⟩ := hw
    obtain ⟨qid, turns, rfl⟩ := hlast hz
    exact ⟨retries ++ [.full cpus qid turns], by simp [GetRetry.ops]⟩

/-- A purge goes on in the same way for a fault and alone. -/
lemma within_purge {ret : Option Req} {x y : PurgePc} {z : LockOps}
    (hw : (Pc.purge ret x).Within e.ncpus s ops)
    (hxy : ∀ w, x.Within e.ncpus w → y.Within e.ncpus (w ++ z)) :
    (Pc.purge ret y).Within e.ncpus s' (ops ++ z) := by
  cases ret with
  | none => exact hxy ops hw
  | some r =>
    obtain ⟨retries, cpus, w, hw, rfl⟩ := hw
    exact ⟨retries, cpus, _, hxy w hw, by simp⟩

lemma within_stepPurge {ret : Option Req} {x : PurgePc}
    (hw : (Pc.purge ret x).Within e.ncpus s ops) (hs : s.stepPurge e ret x = .ok (s', pc')) :
    pc'.Within e.ncpus s' (ops ++ s.purgeSections e ptl x) := by
  cases x with
  | take qid n pgs =>
    cases n with
    | zero =>
      rw [← (Prod.mk.inj (Except.ok.inj hs)).2]
      refine within_purge hw ?_
      rintro w ⟨turns, hpgs, rfl⟩
      exact ⟨qid, turns, [], _, rfl, hpgs, rfl⟩
    | succ n =>
      simp only [State.stepPurge] at hs
      split at hs
      all_goals
        rw [← (Prod.mk.inj (Except.ok.inj hs)).2]
        refine within_purge hw ?_
        rintro w ⟨turns, hpgs, rfl⟩
      · refine ⟨turns ++ [⟨s.deqHead qid, none⟩], ?_, ?_⟩
        · simpa using hpgs
        · simp [PurgeTurn.ops, purgeSections]
      · exact ⟨turns, _, hpgs, rfl⟩
  | delete qid n pgs p =>
    simp only [State.stepPurge] at hs
    split at hs
    · exact absurd hs (by simp)
    · rw [← (Prod.mk.inj (Except.ok.inj hs)).2]
      refine within_purge hw ?_
      rintro w ⟨turns, tried, hpgs, rfl⟩
      exact ⟨turns, tried, s.pageRef ptl p, hpgs, rfl, List.append_assoc _ _ _⟩
  | unmap qid n pgs p =>
    rw [← (Prod.mk.inj (Except.ok.inj hs)).2]
    refine within_purge hw ?_
    rintro w ⟨turns, tried, r, hpgs, rfl, rfl⟩
    refine ⟨turns ++ [⟨tried, some { r with slots := (s.pageRef ptl r.page).slots }⟩], ?_, ?_⟩
    · simp [hpgs]
    · simp [PurgeTurn.ops, purgeSections, LockOps.removeMappings]
  | free pgs =>
    cases pgs with
    | nil =>
      rw [← (Prod.mk.inj (Except.ok.inj hs)).2]
      rw [purgeSections, List.append_nil]
      exact within_purgeReturn hw
    | cons p pgs =>
      rw [← (Prod.mk.inj (Except.ok.inj hs)).2]
      refine within_purge hw ?_
      rintro w ⟨qid, turns, freed, rest, hf, hrest, rfl⟩
      obtain ⟨r, rest, rfl, rfl, rfl⟩ := List.map_eq_cons_iff.mp hrest
      obtain ⟨turns', hf', hops⟩ := exists_freed hf (s.pages r.page).cpuid
      refine ⟨qid, turns', freed ++ [{ r with cpuid := (s.pages r.page).cpuid }], rest, ?_, rfl, ?_⟩
      · simp [hf']
      · rw [hops]
        simp [purgeSections, LockOps.freePageLock, pageRef]

lemma within_stepEvict {x : EvictPc} (hw : x.Within e.ncpus ops)
    (hs : s.stepEvict e x = .ok (s', pc')) :
    pc'.Within e.ncpus s' (ops ++ s.evictSections e ptl x) := by
  cases x with
  | take id =>
    obtain rfl : ops = [] := hw
    simp only [State.stepEvict] at hs
    split at hs
    all_goals rw [← (Prod.mk.inj (Except.ok.inj hs)).2]
    · exact .inr ⟨.evict id _ none, (List.append_nil _).symm⟩
    · exact ⟨_, rfl⟩
  | untree id p =>
    obtain ⟨tried, rfl⟩ := hw
    simp only [State.stepEvict] at hs
    split at hs
    · exact absurd hs (by simp)
    · rename_i v hv
      rw [← (Prod.mk.inj (Except.ok.inj hs)).2]
      exact ⟨tried, s.pageRef ptl p, [], by simp [pageRef, hv], by simp [evictSections]⟩
  | scan d =>
    have hc : Collects e.ncpus d.id d.pvd ops := hw
    simp only [State.stepEvict] at hs
    split_ifs at hs with hstop
    · rw [← (Prod.mk.inj (Except.ok.inj hs)).2]
      rw [evictSections, if_pos hstop, List.append_nil]
      exact ⟨d.id, hc⟩
    · split at hs
      all_goals
        rw [← (Prod.mk.inj (Except.ok.inj hs)).2]
        rw [evictSections, if_neg hstop]
      · simpa [ScanTurn.ops] using Collects.turn hc ⟨d.offset, none⟩ d.pgs
      · exact ⟨ops, hc, rfl⟩
  | grab d q =>
    obtain ⟨y, hc, rfl⟩ := hw
    simp only [State.stepEvict] at hs
    split at hs
    all_goals rw [← (Prod.mk.inj (Except.ok.inj hs)).2]
    · simpa [ScanTurn.ops, evictSections] using
        Collects.turn hc ⟨d.offset, some (q, true)⟩ (d.pgs ++ [q])
    · exact ⟨y, hc, List.append_assoc _ _ _⟩
  | back d q =>
    obtain ⟨y, hc, rfl⟩ := hw
    rw [← (Prod.mk.inj (Except.ok.inj hs)).2]
    simpa [ScanTurn.ops, evictSections] using Collects.turn hc ⟨d.offset, some (q, false)⟩ d.pgs
  | clear v pgs =>
    obtain ⟨id, hc⟩ := hw
    rw [← (Prod.mk.inj (Except.ok.inj hs)).2]
    exact ⟨id, ops, hc, pgs.map (s.pageRef ptl), by simp [Function.comp_def], rfl⟩
  | write v pgs =>
    obtain ⟨id, y, hc, rs, hrs, rfl⟩ := hw
    rw [← (Prod.mk.inj (Except.ok.inj hs)).2]
    exact ⟨id, y, hc, [], rs, rfl, hrs, by simp [evictSections]⟩
  | insert v done todo =>
    obtain ⟨id, y, hc, rs, rs', hrs, hrs', rfl⟩ := hw
    cases todo with
    | nil =>
      obtain rfl := List.map_eq_nil_iff.mp hrs'
      rw [← (Prod.mk.inj (Except.ok.inj hs)).2]
      exact ⟨id, v, y, hc, rs, [], by simpa using hrs, by simp [evictSections]⟩
    | cons p todo =>
      obtain ⟨r, rs', rfl, rfl, rfl⟩ := List.map_eq_cons_iff.mp hrs'
      rw [← (Prod.mk.inj (Except.ok.inj hs)).2]
      -- the queue of the page is read now
      refine ⟨id, y, hc, rs ++ [{ r with index := (s.pages r.page).index }], rs', ?_, rfl, ?_⟩
      · simp [hrs]
      · simp [evictSections, LockOps.insertPage, LockOps.clearMappings, pageRef]
  | unlock todo =>
    obtain ⟨id, v, y, hc, rs, done, hrs, rfl⟩ := hw
    cases todo with
    | nil =>
      rw [← (Prod.mk.inj (Except.ok.inj hs)).2]
      rw [List.append_nil] at hrs
      rw [evictSections, List.append_nil, ← hrs]
      exact .inr (Collects.evict hc rs)
    | cons p todo =>
      rw [← (Prod.mk.inj (Except.ok.inj hs)).2]
      exact ⟨id, v, y, hc, rs, done ++ [p], by simpa using hrs, by simp [evictSections]⟩

/-- A sync that is done. -/
lemma exists_sync (a : SyncArgs) (fills : List (ℕ × List (Option PageId)))
    (turns : List DrainTurn) : ∃ k : Call,
      LockOps.writeDirtyPages a.fsync ⟨a.pvd, fills, turns, []⟩ = k.ops e.ncpus := by
  cases ha : a.fsync with
  | true => exact ⟨.fsync ⟨a.pvd, fills, turns, []⟩, rfl⟩
  | false => exact ⟨.release ⟨a.pvd, fills, turns, []⟩, rfl⟩

lemma within_startCleanup {a : SyncArgs} {h : MinHeap} {pgs : List PageId}
    {fills : List (ℕ × List (Option PageId))} {turns : List DrainTurn} {cpu : ℕ}
    {tried : List (Option PageId)} : (startCleanup a p h pgs).Within e.ncpus s
      (LockOps.writeDirtyPages a.fsync ⟨a.pvd, fills, turns, []⟩ ++ pullTree a.pvd cpu tried) := by
  simp only [startCleanup]
  split
  · rename_i ha
    exact ⟨by simp [SyncArgs.fsync, ha], fills, turns, cpu, tried, rfl⟩
  · rename_i ha
    exact ⟨fills, turns, cpu, tried, s.pageRef (fun _ => 0) p, by
      simp [protect, SyncArgs.fsync, ha]⟩

lemma pullTree_concat (v : PvdId) (cpu : ℕ) (tried : List (Option PageId)) (s : State C) :
    LockOps.pullTree v cpu tried ++ s.pullSections v cpu =
      LockOps.pullTree v cpu (tried ++ [(s.trees ⟨.dirty, v, cpu⟩).first?.map Prod.snd]) := by
  simp [LockOps.pullTree, pullSections]

lemma within_stepSync {a : SyncArgs} {x : SyncPc} (hw : x.Within s a ops)
    (hs : s.stepSync e a x = .ok (s', pc')) :
    pc'.Within e.ncpus s' (ops ++ s.syncSections ptl a x) := by
  cases x with
  | fill cpus h =>
    obtain ⟨fills, rfl⟩ := hw
    cases cpus with
    | nil =>
      rw [← (Prod.mk.inj (Except.ok.inj hs)).2]
      exact ⟨fills, [], by simp, List.append_nil _⟩
    | cons cpu cpus =>
      obtain ⟨b, h', -, rfl⟩ := stepSync_fill_cons hs
      refine ⟨fills ++ [(cpu, [(s.trees ⟨.dirty, a.pvd, cpu⟩).first?.map Prod.snd])], ?_⟩
      rw [writeDirtyPages_fill]
      simp [syncSections, pullSections, LockOps.pullTree]
  | min h pgs =>
    obtain ⟨fills, turns, hne, rfl⟩ := hw
    simp only [State.stepSync] at hs
    split_ifs at hs with hz hpgs
    all_goals
      rw [← (Prod.mk.inj (Except.ok.inj hs)).2]
      rw [syncSections, List.append_nil]
    · exact .inr (exists_sync a fills turns)
    · exact ⟨fills, turns, hne hpgs, rfl⟩
    · exact ⟨fills, turns, [], by simp [LockOps.pullTree]⟩
  | pull n h pgs =>
    obtain ⟨fills, turns, tried, rfl⟩ := hw
    obtain ⟨b, h', -, rfl⟩ := stepSync_pull hs
    rw [syncSections, List.append_assoc, pullTree_concat]
    split_ifs
    · exact ⟨fills, turns, _, rfl⟩
    · exact within_startCleanup
  | clear p h pgs =>
    obtain ⟨ha, fills, turns, cpu, tried, rfl⟩ := hw
    rw [← (Prod.mk.inj (Except.ok.inj hs)).2]
    exact ⟨fills, turns, cpu, tried, s.pageRef ptl p, by simp [protect, ha, syncSections]⟩
  | remove p h pgs =>
    obtain ⟨fills, turns, cpu, tried, r, rfl⟩ := hw
    obtain ⟨rfl, rfl⟩ := Prod.mk.inj (Except.ok.inj hs)
    refine ⟨fills, turns, cpu, tried, { r with index := (s.pages p).index }, ?_, ?_⟩
    · simp [remove_pages]
    · simp [syncSections, protect, LockOps.clearMappings]
  | enqueue p h pgs =>
    obtain ⟨fills, turns, cpu, tried, r, hr, rfl⟩ := hw
    have hturn : LockOps.writeDirtyPages a.fsync
        ⟨a.pvd, fills, turns ++ [⟨r, cpu, tried, []⟩], []⟩ =
        LockOps.writeDirtyPages a.fsync ⟨a.pvd, fills, turns, []⟩ ++
          (LockOps.pullTree a.pvd cpu tried ++ protect a.fsync r ++
            critical (.fifoLock (dirtyQueue r.index)) []) ++
          s.syncSections ptl a (.enqueue p h pgs) := by
      rw [writeDirtyPages_turn]
      simp [DrainTurn.ops, cleanup, protect, LockOps.movePageD2c, syncSections, hr]
    simp only [State.stepSync] at hs
    split_ifs at hs
    all_goals rw [← (Prod.mk.inj (Except.ok.inj hs)).2]
    · exact ⟨fills, _, by simp, hturn.symm⟩
    · exact ⟨fills, _, by simp, hturn.symm⟩
  | write h pgs =>
    obtain ⟨fills, turns, hne, rfl⟩ := hw
    rw [← (Prod.mk.inj (Except.ok.inj hs)).2]
    exact ⟨fills, turns, hne, List.append_nil _⟩
  | unlock h todo =>
    obtain ⟨fills, turns, hne, rfl⟩ := hw
    cases todo with
    | nil =>
      rw [← (Prod.mk.inj (Except.ok.inj hs)).2]
      exact ⟨fills, turns, by simp, List.append_nil _⟩
    | cons p todo =>
      rw [← (Prod.mk.inj (Except.ok.inj hs)).2]
      obtain ⟨turns', hne', hops⟩ := exists_written a.pvd a.fsync fills hne p
      exact ⟨fills, turns', hne', hops.symm⟩

variable (ptl) in
/-- A step of a thread in its call. -/
lemma Inv.within_stepThread (h : Inv e m) (hw : (m.pc t).Within e.ncpus m.st ops)
    (hs : m.st.stepThread e c (m.pc t) = .ok (s', pc')) :
    pc'.Within e.ncpus s' (ops ++ m.st.sections e ptl c (m.pc t)) := by
  cases hpc : m.pc t with
  | idle =>
    rw [hpc] at hs
    exact absurd hs (by simp [State.stepThread])
  | get r x =>
    rw [hpc] at hs hw
    exact h.within_stepGet hpc hw hs
  | mkwrite r p x =>
    rw [hpc] at hs hw
    exact h.within_stepMkwrite hpc hw hs
  | purge ret x =>
    rw [hpc] at hs hw
    exact within_stepPurge hw hs
  | evict x =>
    rw [hpc] at hs hw
    exact within_stepEvict hw hs
  | sync a x =>
    rw [hpc] at hs hw
    exact within_stepSync hw hs

/-! ### The steps of the other threads -/

/-- While a thread holds a page, the others leave its index alone. -/
lemma Inv.index_of_others (h : Inv e m) (h' : Inv e m') {u : Tid} (hu : u ≠ t)
    (hheld : p ∈ (m.pc u).locks) (hs : m.st.stepThread e c (m.pc t) = .ok (s', pc'))
    (hm : m' = m.put t s' pc' (m.log ++ m.st.blocks e (m.pc t))) :
    (s'.pages p).index = (m.st.pages p).index := by
  have hp : (m.pc u).Holds p := .inl hheld
  have hedit := edit_stepThread hs p
  cases hedit with
  | same hf => exact congrArg (fun f => f.index) hf
  | alloc hpc hpc' _ _ =>
    -- the page would have two holders
    have hp' : (m'.pc u).Holds p := by
      rw [hm, put_pc_of_ne hu]
      exact hp
    exact absurd (h'.exclusive (t := t) (by rw [hm, put_pc_self, hpc']; exact .inr rfl) hp') hu
  | free hfree _ _ =>
    exact absurd (h.exclusive (alone_of_frees hfree).1 hp) hu
  | read _ hf | mark _ hf | clean _ hf => exact congrArg (fun f => f.index) hf

lemma Inv.within_other (h : Inv e m) (h' : Inv e m') {u : Tid} (hu : u ≠ t)
    (hw : (m.pc u).Within e.ncpus m.st ops) (hs : m.st.stepThread e c (m.pc t) = .ok (s', pc'))
    (hm : m' = m.put t s' pc' (m.log ++ m.st.blocks e (m.pc t))) :
    (m.pc u).Within e.ncpus s' ops := by
  cases hpc : m.pc u with
  | sync a x =>
    rw [hpc] at hw
    cases x with
    | enqueue p hp pgs =>
      obtain ⟨fills, turns, cpu, tried, r, hr, rfl⟩ := hw
      have hindex := h.index_of_others h' hu (p := p) (by rw [hpc]; simp [Pc.locks]) hs hm
      exact ⟨fills, turns, cpu, tried, r, hr.trans hindex.symm, rfl⟩
    | _ => exact hw
  | purge ret x =>
    rw [hpc] at hw
    cases ret <;> exact hw
  | _ =>
    rw [hpc] at hw
    exact hw

/-! ### Runs -/

/-- The operations on locks of a step. -/
def lockOps (e : Env C) (ptl : VmaId × ℕ → ℕ) (m : Machine C) : Tid × Act C → LockOps
  | (_, .start _) => []
  | (t, .step c) => m.st.sections e ptl c (m.pc t)

/-- The machine, with the operations that each thread has done. -/
def StepsTraced (e : Env C) (ptl : VmaId × ℕ → ℕ) (x : Machine C × (Tid → LockOps))
    (l : Tid × Act C) (y : Machine C × (Tid → LockOps)) : Prop :=
  StepsUnclaimed e x.1 l y.1 ∧
    y.2 = Function.update x.2 l.1 (x.2 l.1 ++ x.1.lockOps e ptl l)

/-- Every thread has done some calls, and a part of the one that it is in. -/
def DoneCalls (e : Env C) (x : Machine C × (Tid → LockOps)) : Prop :=
  ∀ t, ∃ (calls : List Call) (ops : LockOps),
    x.2 t = calls.flatMap (Call.ops e.ncpus) ++ ops ∧ (x.1.pc t).Within e.ncpus x.1.st ops

/-- A call starts with nothing done. -/
lemma within_start {k : Task} (hs : s.start e t k = .ok pc) : pc.Within e.ncpus s [] := by
  rcases start_inv hs with ⟨vma, i, v, -, -, rfl⟩ | ⟨vma, i, v, p, w, -, -, -, rfl⟩ |
    ⟨qid, -, rfl⟩ | ⟨id, -, -, rfl⟩ | ⟨cb, v, -, rfl⟩
  · exact ⟨[], rfl⟩
  · exact ⟨0, rfl⟩
  · exact ⟨[], rfl, rfl⟩
  · rfl
  · exact ⟨[], rfl⟩

lemma DoneCalls.step {x y : Machine C × (Tid → LockOps)} {l : Tid × Act C}
    (hx : Sound e x.1 ∧ DoneCalls e x) (hs : StepsTraced e ptl x l y) :
    Sound e y.1 ∧ DoneCalls e y := by
  obtain ⟨hsound, hdone⟩ := hx
  obtain ⟨⟨hu, hstep⟩, htr⟩ := hs
  have hsound' := hsound.step hu hstep
  refine ⟨hsound', fun t => ?_⟩
  obtain ⟨calls, ops, hops, hw⟩ := hdone t
  obtain ⟨u, act⟩ := l
  rw [htr]
  rcases steps_cases hstep with ⟨k, pc', rfl, hidle, hk, hy⟩ | ⟨c, s', pc', rfl, hk, hy⟩
  · by_cases ht : t = u
    · subst ht
      rw [Function.update_self, lockOps, List.append_nil, hy, put_pc_self, put_st]
      rw [hidle] at hw
      rcases hw with rfl | ⟨call, rfl⟩
      · exact ⟨calls, [], hops, within_start hk⟩
      · exact ⟨calls ++ [call], [], by simpa using hops, within_start hk⟩
    · rw [Function.update_of_ne ht, hy, put_pc_of_ne ht, put_st]
      exact ⟨calls, ops, hops, hw⟩
  · by_cases ht : t = u
    · subst ht
      rw [Function.update_self, hy, put_pc_self, put_st]
      refine ⟨calls, _, ?_, hsound.inv.within_stepThread ptl hw hk⟩
      rw [hops, List.append_assoc]
      rfl
    · rw [Function.update_of_ne ht]
      have hw' := hsound.inv.within_other hsound'.inv ht hw hk hy
      rw [hy, put_pc_of_ne ht, put_st]
      exact ⟨calls, ops, hops, hw'⟩

/-- Between two calls, a thread has done what `SpinLocks` lists for the calls that it has made,
whatever the other threads have done. -/
theorem exists_calls {s₀ : State C} (h₀ : s₀.Tidy e) {ls : List (Tid × Act C)} {tr : Tid → LockOps}
    (hr : Run (StepsTraced e ptl) (quiescent s₀, fun _ => []) ls (m, tr))
    (hidle : m.pc t = .idle) : ∃ calls : List Call, tr t = calls.flatMap (Call.ops e.ncpus) := by
  have hdone := (hr.invariant (I := fun x => Sound e x.1 ∧ DoneCalls e x)
    (fun _ _ _ hx hs => DoneCalls.step hx hs)
    ⟨sound_quiescent h₀, fun _ => ⟨[], [], rfl, .inl rfl⟩⟩).2
  obtain ⟨calls, ops, hops, hw⟩ := hdone t
  rw [hidle] at hw
  rcases hw with rfl | ⟨call, rfl⟩
  · exact ⟨calls, by simpa using hops⟩
  · exact ⟨calls ++ [call], by simpa using hops⟩

end Machine

end FastMap
