import FastMap.Requests
import FastMap.System

/-!
# Requests that fail

How each write request ends is chosen by the environment. `write_bio_async` waits for its requests
without reading their errors, and `write_file_async` prints a line and goes on, so the pages of a
batch become clean whatever has come of it. A failure is not forgotten exactly when there is none
to forget: all requests of the call succeed, and every page of its batches is in a request.
-/

namespace FastMap

variable {C : Type*}

/-- How a write request ends. -/
inductive Outcome where
  | ok
  /-- Only the first pages have reached the device. -/
  | short (n : ℕ)
  | failed
  deriving DecidableEq, Repr

/-- What of a request reaches the device. -/
def Outcome.landed : Outcome → List (BlockWrite C) → List (BlockWrite C)
  | .ok, ws => ws
  | .short n, ws => ws.take n
  | .failed, _ => []

/-- The outcomes of the requests of a call, by their pages: no two of them have the same. -/
abbrev Outcomes := List PageId → Outcome

namespace State

/-- The loop over the requests. -/
def writeOutcomes (o : Outcomes) (s : State C) (pgs : List PageId) : List (BlockWrite C) :=
  (List.range pgs.length).flatMap fun i => (o (s.requestPages pgs i)).landed (s.request pgs i)

/-- With no failure this is the writer of the driver. -/
lemma writeOutcomes_ok (s : State C) (pgs : List PageId) :
    s.writeOutcomes (fun _ => .ok) pgs = s.writeMerged pgs := rfl

end State

/-- The machine during a call whose requests end as given. -/
def Env.withOutcomes (e : Env C) (o : Outcomes) : Env C :=
  { e with writeAsync := fun _ s pgs => s.writeOutcomes o pgs }

namespace State

/-- `dmap_fsync` on a descriptor of a raw device, with the value it returns. -/
def dmapFsync (e : Env C) (s : State C) (i : InfoId) : Except Halt (ℤ × State C) :=
  match (s.infos i).pvd with
  | none => .error .nullDeref
  | some v =>
    match s.writeDirtyPages e .fsync v with
    | .error x => .error x
    | .ok s' => .ok (0, s')

/-- The batches of a `dmap_fsync`. -/
def fsyncBatches (e : Env C) (s : State C) (i : InfoId) : List (List PageId) :=
  match (s.infos i).pvd with
  | none => []
  | some v => s.syncBatches e .fsync v

variable {e : Env C} {s s' : State C} {o o' : Outcomes} {p : PageId} {v : PvdId}
  {bs : List (List PageId)}

/-- A call with the outcomes of its requests. -/
def CompletesWith (e : Env C) (s : State C) (call : Op C × Outcomes) (s' : State C) : Prop :=
  Completes (e.withOutcomes call.2) s call.1 s'

/-! ### The invariant does not depend on the writer -/

lemma Resident.withOutcomes {x : PageView C} (h : Resident e p x) :
    Resident (e.withOutcomes o) p x :=
  ⟨h.lt, h.inUse, h.free, h.cpuid, h.cached, h.tree, h.clean, h.dirty, h.bufferId⟩

lemma Quiet.withOutcomes (h : s.Quiet e) (o : Outcomes) : s.Quiet (e.withOutcomes o) where
  placed := { h.placed with }
  page p := ⟨(h.page p).phase.imp_right Resident.withOutcomes, (h.page p).unlocked,
    (h.page p).free⟩

lemma quiet_of_run {w : World C} {calls : List (Op C × Outcomes)}
    (hr : Run (CompletesWith e) (initParams e w) calls s) (o : Outcomes) :
    s.Quiet (e.withOutcomes o) := by
  refine hr.invariant (I := fun s => ∀ o, s.Quiet (e.withOutcomes o)) ?_ ?_ o
  · intro s call s' hq hs o
    exact ((hq call.2).step hs).withOutcomes o
  · exact fun o => (quiet_initParams e w).withOutcomes o

/-! ### What a call forgets -/

/-- A page has become clean only if it is in a request and its requests have succeeded. The pages
keep their indices during the call, so the requests can be read off the state before it. -/
def CleanedOnceWritten (o : Outcomes) (s s' : State C) (bs : List (List PageId)) : Prop :=
  ∀ p, (s.pages p).isDirty = true → (s'.pages p).isDirty = false →
    (∃ b ∈ bs, ∃ r ∈ s.requests b, p ∈ r) ∧ ∀ b ∈ bs, ∀ r ∈ s.requests b, p ∈ r → o r = .ok

/-- All requests of the batches succeed. -/
def AllSucceed (o : Outcomes) (s : State C) (bs : List (List PageId)) : Prop :=
  ∀ b ∈ bs, ∀ r ∈ s.requests b, o r = .ok

/-- A call makes all pages of its batches clean, and no others. -/
structure Cleans (s s' : State C) (bs : List (List PageId)) : Prop where
  nodup : bs.flatten.Nodup
  mem_iff {p : PageId} : (s.pages p).isDirty = true ∧ (s'.pages p).isDirty = false ↔ p ∈ bs.flatten

lemma Batch.cleans {cb : Cleanup}
    (h : Batch e (s.view e) (Evictable e v) (PageView.synced cb) s' bs.flatten) :
    Cleans s s' bs := by
  refine ⟨h.nodup, fun {p} => ⟨fun ⟨hd, hc⟩ => ?_, fun hp => ⟨(h.all hp).2.1, ?_⟩⟩⟩
  · by_contra hp
    rw [h.pages_of_not_mem hp, hd] at hc
    exact Bool.false_ne_true hc.symm
  · rw [h.pages_of_mem hp]
    rfl

/-- Batches with a page in common are the same batch. -/
lemma Cleans.eq_of_mem (h : Cleans s s' bs) {b b' : List PageId} (hb : b ∈ bs) (hb' : b' ∈ bs)
    (hp : p ∈ b) (hp' : p ∈ b') : b = b' := by
  obtain ⟨-, hdis⟩ := List.nodup_flatten.mp h.nodup
  have : Std.Symm (@List.Disjoint PageId) := ⟨fun _ _ hd => hd.symm⟩
  by_contra hne
  exact hdis.forall hb hb' hne hp hp'

lemma Cleans.cleanedOnceWritten_iff (h : Cleans s s' bs) :
    CleanedOnceWritten o s s' bs ↔ AllSucceed o s bs ∧ ShortRuns s bs := by
  have hmem : ∀ {b p}, b ∈ bs → p ∈ b → (s.pages p).isDirty = true ∧ (s'.pages p).isDirty = false :=
    fun hb hp => h.mem_iff.mpr (List.mem_flatten.mpr ⟨_, hb, hp⟩)
  constructor
  · intro hc
    constructor
    · intro b hb r hr
      obtain ⟨p, hp⟩ := List.exists_mem_of_ne_nil r (mem_requests.mp hr).2
      obtain ⟨hd, hd'⟩ := hmem hb (mem_of_mem_request hr hp)
      exact (hc p hd hd').2 b hb r hr hp
    · intro b hb hl
      have hn : b.Nodup := (List.nodup_flatten.mp h.nodup).1 b hb
      -- the lost page would have to be in a request of another batch
      obtain ⟨p, hp, hnone⟩ := exists_unrequested hn hl
      obtain ⟨hd, hd'⟩ := hmem hb hp
      obtain ⟨⟨b', hb', r, hr, hpr⟩, -⟩ := hc p hd hd'
      obtain rfl := h.eq_of_mem hb hb' hp (mem_of_mem_request hr hpr)
      exact hnone r hr hpr
  · rintro ⟨hok, hshort⟩ p hd hd'
    obtain ⟨b, hb, hp⟩ := List.mem_flatten.mp (h.mem_iff.mp ⟨hd, hd'⟩)
    refine ⟨⟨b, hb, exists_request (hshort b hb) hp⟩, fun b hb r hr _ => hok b hb r hr⟩

lemma Quiet.cleans_evictor (h : s.Quiet e) (id : ℕ) (held : List PageId) :
    Cleans s (s.evictorRoundHeld e id held) [s.evictorBatchHeld e id held] := by
  obtain ⟨v, hb, -⟩ := h.evictorRoundHeld id held
  have hb' : Batch e (s.view e) (Evictable e v) (PageView.synced .fsync)
      (s.evictorRoundHeld e id held) [s.evictorBatchHeld e id held].flatten := by
    rw [List.flatten_singleton]
    exact hb
  exact hb'.cleans

lemma Quiet.cleans_writeDirty (h : s.Quiet e) {cb : Cleanup}
    (hs : s.writeDirtyPages e cb v = .ok s') : Cleans s s' (s.syncBatches e cb v) :=
  (h.inv.writeDirtyPages hs).batch.cleans

lemma Quiet.cleans_dmapFsync (h : s.Quiet e) {i : InfoId} {ret : ℤ}
    (hs : s.dmapFsync e i = .ok (ret, s')) : ret = 0 ∧ Cleans s s' (s.fsyncBatches e i) := by
  simp only [dmapFsync] at hs
  simp only [fsyncBatches]
  split at hs
  · exact absurd hs (by simp)
  · split at hs
    · exact absurd hs (by simp)
    · rename_i v hv s₁ hw
      obtain ⟨rfl, rfl⟩ : 0 = ret ∧ s₁ = s' := by simpa using hs
      exact ⟨rfl, h.cleans_writeDirty hw⟩

/-- In every reachable state and for all outcomes, a round of an evictor, a `write_dirty_pages` and
a `dmap_fsync` forget no failed write exactly when none of their requests fails and no run of pages
is too long. -/
theorem no_failure_is_forgotten_iff (e : Env C) (w : World C) (calls : List (Op C × Outcomes))
    (s : State C) (hr : Run (CompletesWith e) (initParams e w) calls s) (o : Outcomes) :
    (∀ id held, let bs := [s.evictorBatchHeld (e.withOutcomes o) id held]
      CleanedOnceWritten o s (s.evictorRoundHeld (e.withOutcomes o) id held) bs ↔
        AllSucceed o s bs ∧ ShortRuns s bs) ∧
    (∀ cb v s', s.writeDirtyPages (e.withOutcomes o) cb v = .ok s' →
      let bs := s.syncBatches (e.withOutcomes o) cb v
      (CleanedOnceWritten o s s' bs ↔ AllSucceed o s bs ∧ ShortRuns s bs)) ∧
    ∀ i ret s', s.dmapFsync (e.withOutcomes o) i = .ok (ret, s') →
      let bs := s.fsyncBatches (e.withOutcomes o) i
      (CleanedOnceWritten o s s' bs ∧ (ret = 0 → AllSucceed o s bs) ↔
        AllSucceed o s bs ∧ ShortRuns s bs) := by
  have hq := quiet_of_run hr o
  refine ⟨fun id held => (hq.cleans_evictor id held).cleanedOnceWritten_iff,
    fun cb v s' hs => (hq.cleans_writeDirty hs).cleanedOnceWritten_iff, fun i ret s' hs => ?_⟩
  obtain ⟨rfl, hc⟩ := hq.cleans_dmapFsync hs
  intro bs
  rw [hc.cleanedOnceWritten_iff]
  constructor
  · exact fun h => h.1
  · exact fun h => ⟨h, fun _ => h.1⟩

/-- The state after a sequence of calls with outcomes, if all are issued and complete. -/
def execWith (e : Env C) (s : State C) (calls : List (Op C × Outcomes)) : Option (State C) :=
  calls.foldlM (fun s c => if s.issued (e.withOutcomes c.2) c.1 then
    (s.exec (e.withOutcomes c.2) c.1).toOption else none) s

lemma run_execWith {calls : List (Op C × Outcomes)} (h : execWith e s calls = some s') :
    Run (CompletesWith e) s calls s' := by
  refine Run.of_foldlM (fun s c s' hs => ?_) h
  split_ifs at hs with hi
  exact ⟨hi, Except.toOption_eq_some.mp hs⟩

/-- One page of the device is dirty. -/
def dirtyPage : List (Op ℕ × Outcomes) :=
  [(.fault 0 0 smallFault, fun _ => .ok), (.mkwrite 0 0, fun _ => .ok)]

set_option maxRecDepth 4000 in
theorem no_failure_is_forgotten_dirtyPage : ∃ s s',
    Run (CompletesWith smallEnv) (initParams smallEnv rawWorld) dirtyPage s ∧
    s.dmapFsync (smallEnv.withOutcomes fun _ => .ok) 0 = .ok (0, s') ∧
    CleanedOnceWritten (fun _ => .ok) s s'
      (s.fsyncBatches (smallEnv.withOutcomes fun _ => .ok) 0) := by
  have h : ((execWith smallEnv (initParams smallEnv rawWorld) dirtyPage).map fun s =>
      ((s.dmapFsync (smallEnv.withOutcomes fun _ => .ok) 0).toOption.map Prod.fst,
        s.fsyncBatches (smallEnv.withOutcomes fun _ => .ok) 0)) = some (some 0, [[0]]) := by
    decide +kernel
  obtain ⟨s, hs, hp⟩ := Option.map_eq_some_iff.mp h
  obtain ⟨hok, hbs⟩ := Prod.mk.inj hp
  obtain ⟨⟨ret, s'⟩, hf, rfl⟩ := Option.map_eq_some_iff.mp hok
  rw [Except.toOption_eq_some] at hf
  have hr := run_execWith hs
  refine ⟨s, s', hr, hf, ?_⟩
  have hiff := (no_failure_is_forgotten_iff smallEnv rawWorld dirtyPage s hr _).2.2 0 0 s' hf
  refine (hiff.mpr ⟨fun _ _ _ _ => rfl, fun b hb => ?_⟩).1
  rw [hbs, List.mem_singleton] at hb
  subst hb
  rintro ⟨i, hi, -⟩
  simp at hi

set_option maxRecDepth 4000 in
/-- The only request of a `dmap_fsync` fails; the call returns 0 and the page is clean. -/
theorem dmapFsync_forgets_failure : ¬ ∀ (e : Env ℕ) (w : World ℕ) (calls : List (Op ℕ × Outcomes))
    (s : State ℕ), Run (CompletesWith e) (initParams e w) calls s → ∀ (o : Outcomes) i ret s',
      s.dmapFsync (e.withOutcomes o) i = .ok (ret, s') →
      let bs := s.fsyncBatches (e.withOutcomes o) i
      CleanedOnceWritten o s s' bs ∧ (ret = 0 → AllSucceed o s bs) := by
  intro hall
  have h : ((execWith smallEnv (initParams smallEnv rawWorld) dirtyPage).map fun s =>
      ((s.dmapFsync (smallEnv.withOutcomes fun _ => .failed) 0).toOption.map Prod.fst,
        s.fsyncBatches (smallEnv.withOutcomes fun _ => .failed) 0, s.requests [0])) =
        some (some 0, [[0]], [[0]]) := by
    decide +kernel
  obtain ⟨s, hs, hp⟩ := Option.map_eq_some_iff.mp h
  obtain ⟨hok, hbs⟩ := Prod.mk.inj hp
  obtain ⟨hbs, hreq⟩ := Prod.mk.inj hbs
  obtain ⟨⟨ret, s'⟩, hf, rfl⟩ := Option.map_eq_some_iff.mp hok
  rw [Except.toOption_eq_some] at hf
  obtain ⟨-, hzero⟩ := hall smallEnv rawWorld dirtyPage s (run_execWith hs) _ 0 0 s' hf
  have := hzero rfl [0] (by rw [hbs]; simp) [0] (by rw [hreq]; simp)
  exact absurd this (by simp)

end State

end FastMap
