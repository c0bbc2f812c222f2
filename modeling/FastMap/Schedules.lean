import FastMap.Charts

/-!
# Schedules

Every schedule of the threads keeps the pages, the locks and the page tables consistent, as long
as no fault is about to lock a page that `alloc_page_lock` hands out to another one. Then a page
that a fault has locked is the page it asked for.
-/

namespace FastMap

variable {C : Type*}

namespace Machine

open State

variable {e : Env C} {m m' : Machine C} {s' : State C} {t : Tid} {pc' : Pc} {p : PageId}
  {c : Choice C} {r : Req} {k : Task}

/-! ### The start of a call -/

/-- The fault that a call serves is for a page of its area. -/
lemma asks_of_start {s : State C} {pc : Pc} (hs : s.start e t k = .ok pc)
    (hr : pc.req = some r) : s.areas.Asks r := by
  rcases start_inv hs with ⟨vma, i, v, -, hv, rfl⟩ | ⟨vma, i, v, p, w, -, hv, -, rfl⟩ |
    ⟨qid, -, rfl⟩ | ⟨id, -, -, rfl⟩ | ⟨cb, v, -, rfl⟩
  · obtain rfl := Option.some.inj hr
    exact ⟨trivial, hv, i, rfl, rfl⟩
  · obtain rfl := Option.some.inj hr
    exact ⟨trivial, hv, i, rfl, rfl⟩
  all_goals simp [Pc.req] at hr

/-- A call starts with no page, and knows of one only if it is a write fault. -/
lemma start_cases {s : State C} {pc : Pc} (hs : s.start e t k = .ok pc) :
    pc.transit = none ∧ pc.fresh = none ∧ pc.bare = [] ∧ pc.ready = none ∧
      (∀ id, pc.evictor = some id → t = .evictor id) ∧
      ∀ r p i, pc.await = some (r, p, i) → pc.req = some r ∧ i = r.vmf.pgoff ∧
        ∃ w, s.pte (r.vmf.vma, r.vmf.address) = .map p w := by
  rcases start_inv hs with ⟨vma, i, v, -, hv, rfl⟩ | ⟨vma, i, v, p, w, -, hv, hpte, rfl⟩ |
    ⟨qid, -, rfl⟩ | ⟨id, -, ht, rfl⟩ | ⟨cb, v, -, rfl⟩
  · simp [Pc.transit, Pc.fresh, Pc.bare, Pc.ready, Pc.evictor, Pc.await]
  · refine ⟨rfl, rfl, rfl, rfl, by simp [Pc.evictor], fun r q j ha => ?_⟩
    simp only [Pc.await, Option.some.injEq, Prod.mk.injEq] at ha
    obtain ⟨rfl, rfl, rfl⟩ := ha
    exact ⟨rfl, rfl, w, hpte⟩
  · simp [Pc.transit, Pc.fresh, Pc.bare, Pc.ready, Pc.evictor, Pc.await]
  · simp [Pc.transit, Pc.fresh, Pc.bare, Pc.ready, Pc.evictor, Pc.await, ht]
  · simp [Pc.transit, Pc.fresh, Pc.bare, Pc.ready, Pc.evictor, Pc.await]

lemma Charts.unmapped_of_fresh (h : Charts e m) {a : VmaId × ℕ} {w : Bool}
    (hf : (m.pc t).fresh = some p) : m.st.pte a ≠ .map p w := by
  intro hp
  have hbare : p ∈ (m.pc t).bare := by
    unfold Pc.fresh at hf
    split at hf
    · rename_i heq
      rw [heq, ← Option.some.inj hf]
      simp [Pc.bare]
    · exact absurd hf (by simp)
  have hn := (h.page p).pte_eq_none (Or.inr fun j => h.bare hbare j) a
  rw [show (m.st.view e p).pte a = some w from mapping_eq_some.mpr hp] at hn
  exact absurd hn (by simp)

/-- A call may start when the page that it has found in a page table is the page that it asks for,
and is not one that has just been allocated. -/
lemma Inv.start_of_await (h : Inv e m) (hidle : m.pc t = .idle)
    (hs : m.st.start e t k = .ok pc')
    (ha : ∀ r q i, pc'.await = some (r, q, i) →
      ((m.st.pages q).pvd = some r.pvd ∧ (m.st.pages q).index = r.vmf.pgoff) ∧
        ∀ u, (m.pc u).fresh ≠ some q) : Inv e (m.put t m.st pc' m.log) := by
  obtain ⟨htr, hf, -, -, he, -⟩ := start_cases hs
  have hlocks := locks_start hs
  refine h.skip hidle ⟨h.placed, rfl⟩ (lockTable_start h.table hidle hs) (fun q => ?_)
    ⟨?_, ?_, ?_, ?_⟩ fun u q hu => ⟨?_, ?_⟩
  · have hno : ¬ Pc.idle.Holds q := by simp [Pc.Holds, Pc.locks, Pc.fresh]
    have hno' : ¬ pc'.Holds q := by simp [Pc.Holds, hlocks, hf]
    refine ⟨iff_of_false hno' hno, fun hq => absurd hq hno, fun hq => absurd hq hno, ?_⟩
    rw [htr]
    rfl
  · intro id hid
    rw [put_pc_self] at hid
    exact he id hid
  · intro c q hq
    simp [htr] at hq
  · intro r q i hq _ _
    rw [put_pc_self] at hq
    exact (ha r q i hq).1
  · intro q hq
    simp [hf] at hq
  · simp [hf]
  · intro r i hq
    exact absurd hu ((ha r q i hq).2 u)

lemma Inv.start (h : Inv e m) (hc : Charts e m) (hidle : m.pc t = .idle)
    (hs : m.st.start e t k = .ok pc') : Inv e (m.put t m.st pc' m.log) := by
  obtain ⟨-, -, -, -, -, ha⟩ := start_cases hs
  refine h.start_of_await hidle hs fun r q i hq => ?_
  obtain ⟨hr, rfl, w, hpte⟩ := ha r q i hq
  refine ⟨?_, fun u hu => hc.unmapped_of_fresh hu hpte⟩
  -- an entry maps a page of the file at the place of the fault
  have hhas := (hc.page q).has (a := (r.vmf.vma, r.vmf.address)) (mapping_eq_some.mpr hpte)
  obtain ⟨-, hv, j, hadr, hpg⟩ := asks_of_start hs hr
  obtain ⟨-, hv', j', hadr', hpg'⟩ := hhas
  refine ⟨hv'.trans hv, ?_⟩
  have hjj : j' = j := VmArea.addr_injective _ (hadr'.symm.trans hadr)
  rw [show (m.st.pages q).index = _ from hpg', hpg, hjj]

lemma Charts.start (h : Charts e m) (hidle : m.pc t = .idle)
    (hs : m.st.start e t k = .ok pc') : Charts e (m.put t m.st pc' m.log) := by
  obtain ⟨-, -, hb, hr, -, -⟩ := start_cases hs
  refine ⟨h.page, fun {u p} hp => ?_, fun {u r p} hu => ?_, fun {u r} hq => ?_⟩
  · by_cases hu : u = t
    · subst hu
      simp [hb] at hp
    · rw [put_pc_of_ne hu] at hp
      exact h.bare hp
  · by_cases hut : u = t
    · subst hut
      simp [hr] at hu
    · rw [put_pc_of_ne hut] at hu
      exact h.ready hu
  · by_cases hu : u = t
    · subst hu
      rw [put_pc_self] at hq
      exact asks_of_start hs hq
    · rw [put_pc_of_ne hu] at hq
      exact h.req hq

/-! ### All schedules -/

/-- The pages, the locks, the threads and the page tables agree. -/
structure Sound (e : Env C) (m : Machine C) : Prop where
  inv : Inv e m
  charts : Charts e m

lemma Sound.step (h : Sound e m) {l : Tid × Act C} (hu : Unclaimed e m l)
    (hs : Steps e m l m') : Sound e m' := by
  obtain ⟨t, act⟩ := l
  rcases steps_cases hs with ⟨k, pc', -, hidle, hk, rfl⟩ | ⟨c, s', pc', rfl, hk, rfl⟩
  · exact ⟨h.inv.start h.charts hidle hk, h.charts.start hidle hk⟩
  · exact ⟨h.inv.stepThread hu hk, h.charts.stepThread h.inv hk⟩

/-- A step at which nobody waits for the page that is allocated. -/
def StepsUnclaimed (e : Env C) (m : Machine C) (l : Tid × Act C) (m' : Machine C) : Prop :=
  Unclaimed e m l ∧ Steps e m l m'

end Machine

namespace State

variable {e : Env C} {s : State C}

/-- No call is in progress, and an entry of a page table maps a page of the file of its area, which
has a slot for the entry. -/
structure Tidy (e : Env C) (s : State C) : Prop where
  quiet : s.Quiet e
  charted (p : PageId) : (s.view e p).Charted s.areas

lemma tidy_initParams (e : Env C) (w : World C) : (initParams e w).Tidy e where
  quiet := quiet_initParams e w
  charted p := by
    refine PageView.charted_of_unmapped rfl fun a => ?_
    rw [Option.eq_none_iff_forall_ne_some]
    intro b hb
    have hpte : (initParams e w).pte a = .map p b := mapping_eq_some.mp hb
    exact absurd hpte (by simp [initParams])

end State

namespace Machine

open State

variable {e : Env C} {s₀ : State C} {m m' : Machine C} {ls : List (Tid × Act C)}

lemma sound_quiescent (h : s₀.Tidy e) : Sound e (quiescent s₀) :=
  ⟨inv_quiescent h.quiet, charts_quiescent h.charted⟩

lemma Sound.tidy (h : Sound e m) (hi : ∀ t, m.pc t = .idle) : m.st.Tidy e :=
  ⟨h.inv.quiet hi, h.charts.page⟩

lemma sound_run (h : s₀.Tidy e) (hr : Run (StepsUnclaimed e) (quiescent s₀) ls m) : Sound e m :=
  hr.invariant (fun _ _ _ hm hs => hm.step hs.1 hs.2) (sound_quiescent h)

/-- A thread that runs alone competes with nobody. -/
lemma run_alone {t : Tid} (hr : Run (Steps e) (quiescent s₀) ls m) (hl : ∀ l ∈ ls, l.1 = t) :
    Run (StepsUnclaimed e) (quiescent s₀) ls m ∧ ∀ u, u ≠ t → m.pc u = .idle := by
  induction hr with
  | nil => exact ⟨.nil, fun _ _ => rfl⟩
  | @snoc as l m₁ m₂ hr hs ih =>
    obtain ⟨hrun, hidle⟩ := ih fun l hl' => hl l (List.mem_append_left _ hl')
    have ht : l.1 = t := hl l (by simp)
    refine ⟨hrun.snoc ⟨?_, hs⟩, fun u hu => ?_⟩
    · intro c r p s₁ _ hpc _ u r' i ha
      by_cases hu : u = t
      · rw [hu, ← ht, hpc] at ha
        simp [Pc.await] at ha
      · rw [hidle u hu] at ha
        simp [Pc.await] at ha
    · have hne : u ≠ l.1 := fun h => hu (h.trans ht)
      rcases steps_cases hs with ⟨k, pc', -, -, -, rfl⟩ | ⟨c, s', pc', -, -, rfl⟩
      · rw [put_pc_of_ne hne]
        exact hidle u hu
      · rw [put_pc_of_ne hne]
        exact hidle u hu

/-- Thread 2 has found the page of block 0 and not yet locked it; meanwhile the page is purged. -/
def stalePage : List (Tid × Act ℕ) :=
  (.user 1, .start (.getpage 0 0)) :: steps (.user 1) 8 ++
  (.user 2, .start (.getpage 0 0)) :: steps (.user 2) 1 ++
  (.user 3, .start (.purge 0)) :: steps (.user 3) 197

/-- A fault on block 0, then a write fault up to its call of `dmap_do_tagged_page_writable`. -/
def faultThenWrite : List (Tid × Act ℕ) :=
  (.user 1, .start (.getpage 0 0)) :: steps (.user 1) 8 ++
    (.user 1, .start (.mkwrite 0 0)) :: steps (.user 1) 1

/-- The request of the write fault. -/
def faultThenWriteReq : Req := ⟨(initParams onePageEnv smallWorld).vmFault 0 0, 0⟩

/-- Thread 2 waits for the page of block 0. Thread 1 gets the page for block 1, and is done before
thread 2 locks it. -/
def otherBlock : List (Tid × Act ℕ) :=
  stalePage ++ (.user 1, .start (.getpage 0 1)) :: steps (.user 1) 8 ++ steps (.user 2) 2

/-- One fault, up to the insertion of its page. -/
def oneFault : List (Tid × Act ℕ) := (.user 1, .start (.getpage 0 0)) :: steps (.user 1) 3

/-- Thread 1 allocates the page again, and thread 2 locks it first. -/
def lockedTwice : List (Tid × Act ℕ) :=
  stalePage ++ (.user 1, .start (.getpage 0 1)) :: steps (.user 1) 2 ++ steps (.user 2) 1 ++
    steps (.user 1) 1

end Machine

end FastMap
