import FastMap.HeapBounds

/-!
# A sync beside the evictors

A user calls `write_dirty_pages` on a file while evictors are at work. In whatever order the steps
come, the call writes all pages of the file that were dirty when it started, unless it runs into one
of three gaps: a run of too many pages in a batch, a page that an evictor has in hand when the call
returns, and more dirty trees than the heap has room for.
-/

namespace FastMap

variable {C : Type*}

namespace Machine

open State

variable {e : Env C} {v : PvdId} {s₀ s' : State C} {m m' : Machine C} {t : Tid} {pc' : Pc}
  {l : Tid × Act C} {p q : PageId} {S : Finset ℕ}

/-- A careful step, made while only the dirty trees of the processors `S` have pages of the file. -/
def StepsWithin (e : Env C) (v : PvdId) (S : Finset ℕ) (m : Machine C) (l : Tid × Act C)
    (m' : Machine C) : Prop :=
  m.st.busyCpus e v ⊆ S ∧ StepsCareful e v m l m'

/-! ### The heap of the call -/

/-- The call of user 0 looks at each tree at most once more, and the pages in its heap are from the
trees of `S`. -/
def Heaps (e : Env C) (v : PvdId) (S : Finset ℕ) (m : Machine C) : Prop :=
  ∀ cb x, m.pc (.user 0) = .sync ⟨cb, v⟩ x →
    x.scans.Nodup ∧ (∀ cpu ∈ x.scans, cpu < e.ncpus) ∧ ∀ n ∈ x.heap.elems, n.cpu ∈ S

/-- As long as the other trees are empty. -/
lemma Heaps.scanning (h : Heaps e v S m) (hS : m.st.busyCpus e v ⊆ S) {cb : Cleanup} {x : SyncPc}
    (hx : m.pc (.user 0) = .sync ⟨cb, v⟩ x) : Scanning e v S m.st x := by
  obtain ⟨hnodup, hlt, hheap⟩ := h cb x hx
  constructor
  · intro cpu hcpu hmem
    by_contra hne
    exact hmem (hS (mem_busyCpus.mpr ⟨hcpu, hne⟩))
  · exact hnodup
  · exact fun hc => hlt _ hc
  · exact fun hn => hheap _ hn

/-- Other threads do not touch the heap, and a step of the call keeps to the trees of `S`. -/
lemma Heaps.step (h : Heaps e v S m) (hsync : Syncing e v s₀ m) (hs : StepsWithin e v S m l m') :
    Heaps e v S m' := by
  obtain ⟨hS, -, hev, hs⟩ := hs
  rcases steps_cases hs with ⟨k, pc', hk, hidle, hst, rfl⟩ | ⟨c, s', pc', -, hst, rfl⟩
  · have ht : Tid.user 0 ≠ l.1 := by
      intro ht
      rw [← ht, hev k hk] at hst
      cases hst
    intro cb x hx
    rw [put_pc_of_ne ht] at hx
    exact h cb x hx
  · by_cases ht : Tid.user 0 = l.1
    · intro cb y hy
      rw [ht, put_pc_self] at hy
      rw [← ht] at hst
      rcases hsync.covers.threads (.user 0) with hu | ⟨hne, -⟩ | ⟨-, cb', x, hu⟩
      · rw [hu] at hst
        cases hst
      · exact absurd rfl hne
      · rw [hu, hy] at hst
        obtain rfl : cb = cb' := by
          rcases pc_of_stepSync hst with hidle | ⟨z, hz⟩
          · cases hidle
          · cases hz
            rfl
        have hscan := (h.scanning hS hu).step (scans_stepSync_of_ok hst)
        exact ⟨hscan.nodup, fun _ hc => hscan.lt hc, fun _ hn => hscan.heap hn⟩
    · intro cb x hx
      rw [put_pc_of_ne ht] at hx
      exact h cb x hx

/-! ### Every schedule -/

/-- The call has started, with an empty heap. -/
lemma heaps_start {cb : Cleanup}
    (hs : m.next e (.user 0) (.start (.sync cb v)) = .ok m') : Heaps e v S m' := by
  rcases steps_cases (l := (.user 0, .start (.sync cb v))) hs with
    ⟨k, pc', hk, -, hst, rfl⟩ | ⟨c, s', pc', hk, -, -⟩
  · obtain rfl := Act.start.inj hk
    obtain rfl := Except.ok.inj hst
    intro cb' x hx
    rw [put_pc_self] at hx
    obtain ⟨-, rfl⟩ := Pc.sync.inj hx
    have helems : minHeapCreate.elems = 0 := rfl
    refine ⟨?_, ?_, ?_⟩
    · simpa [SyncPc.scans, helems] using List.nodup_range
    · simp [SyncPc.scans, helems]
    · intro n hn
      rw [SyncPc.heap, helems] at hn
      exact absurd hn (Multiset.notMem_zero n)
  · cases hk

/-- One step of user 0, which writes no more than 256 pages. -/
def nextAlone (e : Env C) (m : Machine C) (l : Tid × Act C) : Option (Machine C) :=
  if l.1 = .user 0 ∧ (m.pc l.1).writes.length ≤ 256 then
    match l.2 with
    | .step c => (m.next e l.1 (.step c)).toOption
    | .start _ => none
  else none

/-- No other thread is in a call. -/
def Alone (m : Machine C) : Prop := ∀ u, u ≠ .user 0 → m.pc u = .idle

lemma Alone.careful (h : Alone m) (hw : (m.pc (.user 0)).writes.length ≤ 256) (v : PvdId) :
    Careful v m (.user 0) := by
  have hshort : ∀ pgs : List PageId, pgs.length ≤ 256 →
      ¬LongRun (m.st.indices pgs) pgs.length := by
    rintro pgs hlen ⟨i, hi, -⟩
    exact absurd hi (by have := hlen; omega)
  refine ⟨fun {pgs} hpc => ?_, fun {cb hp pgs} hpc => ?_, fun {cb hp} hpc hz u p hu => ?_⟩
  · rw [hpc] at hw
    exact hshort pgs hw
  · rw [hpc] at hw
    exact hshort pgs hw
  · by_cases hu' : u = .user 0
    · rw [hu', hpc] at hu
      simp [Pc.unwritten, Pc.locks, heapPages, BinHeap.elems, hz] at hu
    · rw [h u hu'] at hu
      exact absurd hu (Multiset.notMem_zero p)

lemma Alone.step (h : Alone m) (hs : nextAlone e m l = some m') :
    StepsCareful e v m l m' ∧ Alone m' := by
  unfold nextAlone at hs
  split_ifs at hs with hl
  obtain ⟨t, act⟩ := l
  obtain ⟨rfl, hw⟩ := hl
  cases act with
  | start k => cases hs
  | step c =>
    have hstep : Steps e m (.user 0, .step c) m' := Except.toOption_eq_some.mp hs
    refine ⟨⟨h.careful hw v, by simp, hstep⟩, fun u hu => ?_⟩
    rcases steps_cases hstep with ⟨k, pc', hk, -⟩ | ⟨c', s', pc', -, -, rfl⟩
    · cases hk
    · rw [put_pc_of_ne hu]
      exact h u hu

/-- The sync of the buffer with one dirty page. -/
def syncing : Machine ℕ :=
  (quiescent dirtyBuffer).put (.user 0) dirtyBuffer
    (.sync ⟨.fsync, 0⟩ (.fill (List.range onePageEnv.ncpus) minHeapCreate)) []

end Machine

end FastMap
