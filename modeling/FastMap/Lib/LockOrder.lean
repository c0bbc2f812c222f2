import FastMap.Lib.Run

/-!
# Locks taken in order

Threads that take locks one inside the other. A lock that somebody holds makes a thread wait. When
every thread takes its locks in ascending rank, and gives back what it takes, no run ends with a
thread that waits: of the locks that are waited for, one of the highest rank has a holder that goes
on. Two threads that want what the other has wait forever.
-/

/-- What a thread does with a lock. -/
inductive LockOp (L : Type*) where
  | acquire (l : L)
  | release (l : L)

namespace LockOp

variable {L α : Type*}

/-- A critical section. -/
def critical (l : L) (body : List (LockOp L)) : List (LockOp L) :=
  acquire l :: (body ++ [release l])

/-! ### One thread -/

/-- The operations take a thread from some locks to others. It takes only locks that it does not
have, and gives back only locks that it has. -/
inductive Leads : Multiset L → List (LockOp L) → Multiset L → Prop
  | nil {h : Multiset L} : Leads h [] h
  | acquire {l : L} {h h' : Multiset L} {ops : List (LockOp L)} :
      l ∉ h → Leads (l ::ₘ h) ops h' → Leads h (.acquire l :: ops) h'
  | release {l : L} {h h' : Multiset L} {ops : List (LockOp L)} :
      Leads h ops h' → Leads (l ::ₘ h) (.release l :: ops) h'

/-- The same, where each lock ranks above those that the thread has when it takes it. -/
inductive Ordered [Preorder α] (rank : L → α) : Multiset L → List (LockOp L) → Multiset L → Prop
  | nil {h : Multiset L} : Ordered rank h [] h
  | acquire {l : L} {h h' : Multiset L} {ops : List (LockOp L)} :
      (∀ k ∈ h, rank k < rank l) → Ordered rank (l ::ₘ h) ops h' →
        Ordered rank h (.acquire l :: ops) h'
  | release {l : L} {h h' : Multiset L} {ops : List (LockOp L)} :
      Ordered rank h ops h' → Ordered rank (l ::ₘ h) (.release l :: ops) h'

variable [Preorder α] {rank : L → α} {a b : α} {h h' h'' : Multiset L} {x y ops : List (LockOp L)}
  {l : L}

lemma Leads.append (hx : Leads h x h') (hy : Leads h' y h'') : Leads h (x ++ y) h'' := by
  induction hx with
  | nil => exact hy
  | acquire hl _ ih => exact .acquire hl (ih hy)
  | release _ ih => exact .release (ih hy)

lemma Ordered.append (hx : Ordered rank h x h') (hy : Ordered rank h' y h'') :
    Ordered rank h (x ++ y) h'' := by
  induction hx with
  | nil => exact hy
  | acquire hl _ ih => exact .acquire hl (ih hy)
  | release _ ih => exact .release (ih hy)

lemma Ordered.leads (hx : Ordered rank h x h') : Leads h x h' := by
  induction hx with
  | nil => exact .nil
  | acquire hl _ ih => exact .acquire (fun hmem => lt_irrefl _ (hl _ hmem)) ih
  | release _ ih => exact .release ih

lemma Leads.flatMap {β : Type*} {f : β → List (LockOp L)} {bs : List β}
    (hf : ∀ b ∈ bs, Leads h (f b) h) : Leads h (bs.flatMap f) h := by
  induction bs with
  | nil => exact .nil
  | cons b bs ih =>
    rw [List.flatMap_cons]
    exact (hf b List.mem_cons_self).append (ih fun b' hb => hf b' (List.mem_cons_of_mem b hb))

lemma Leads.critical (hl : l ∉ h) (hx : Leads (l ::ₘ h) x (l ::ₘ h)) :
    Leads h (critical l x) h :=
  .acquire hl (hx.append (.release .nil))

lemma ordered_nil : Ordered rank h [] h' ↔ h = h' := by
  constructor
  · rintro ⟨⟩
    rfl
  · rintro rfl
    exact .nil

lemma ordered_acquire : Ordered rank h (.acquire l :: ops) h' ↔
    (∀ k ∈ h, rank k < rank l) ∧ Ordered rank (l ::ₘ h) ops h' := by
  constructor
  · rintro (_ | ⟨hl, ho⟩)
    exact ⟨hl, ho⟩
  · exact fun ⟨hl, ho⟩ => .acquire hl ho

lemma ordered_release : Ordered rank h (.release l :: ops) h' ↔
    ∃ g, h = l ::ₘ g ∧ Ordered rank g ops h' := by
  constructor
  · intro ho
    generalize hx : LockOp.release l :: ops = x at ho
    cases ho with
    | nil => simp at hx
    | acquire hl ho => simp at hx
    | release ho =>
      obtain ⟨⟨rfl⟩, rfl⟩ := List.cons.inj hx
      exact ⟨_, rfl, ho⟩
  · rintro ⟨g, rfl, ho⟩
    exact .release ho

/-- The operations take no lock below the rank `a`, and give back what they take. -/
def Above (rank : L → α) (a : α) (x : List (LockOp L)) : Prop :=
  ∀ h : Multiset L, (∀ k ∈ h, rank k < a) → Ordered rank h x h

lemma Above.nil : Above rank a [] := fun _ _ => .nil

lemma Above.append (hx : Above rank a x) (hy : Above rank a y) : Above rank a (x ++ y) :=
  fun h hh => (hx h hh).append (hy h hh)

lemma Above.mono (hab : b ≤ a) (hx : Above rank a x) : Above rank b x :=
  fun h hh => hx h fun k hk => (hh k hk).trans_le hab

lemma Above.flatMap {β : Type*} {f : β → List (LockOp L)} {bs : List β}
    (hf : ∀ b ∈ bs, Above rank a (f b)) : Above rank a (bs.flatMap f) := by
  induction bs with
  | nil => exact .nil
  | cons b bs ih =>
    rw [List.flatMap_cons]
    exact (hf b List.mem_cons_self).append (ih fun b' hb => hf b' (List.mem_cons_of_mem b hb))

/-- A section is above the rank of its lock when its body ranks above the lock. -/
lemma Above.critical (hl : rank l < b) (hx : Above rank b x) :
    Above rank (rank l) (critical l x) := by
  intro h hh
  refine .acquire hh ((hx (l ::ₘ h) fun k hk => ?_).append (.release .nil))
  rcases Multiset.mem_cons.mp hk with rfl | hk
  · exact hl
  · exact (hh k hk).trans hl

/-- A section with nothing in it. -/
lemma Above.leaf (l : L) : Above rank (rank l) (LockOp.critical l []) :=
  fun _ hh => .acquire hh (.release .nil)

/-- The locks that the operations take. -/
def taken : List (LockOp L) → List L
  | [] => []
  | .acquire l :: ops => l :: taken ops
  | .release _ :: ops => taken ops

@[simp] lemma taken_nil : taken ([] : List (LockOp L)) = [] := rfl

@[simp] lemma taken_append (x y : List (LockOp L)) : taken (x ++ y) = taken x ++ taken y := by
  induction x with
  | nil => rfl
  | cons o x ih => cases o <;> simp [taken, ih]

@[simp] lemma taken_critical (l : L) (x : List (LockOp L)) :
    taken (critical l x) = l :: taken x := by
  simp [critical, taken]

lemma mem_taken_flatMap {β : Type*} {f : β → List (LockOp L)} {bs : List β} :
    l ∈ taken (bs.flatMap f) ↔ ∃ b ∈ bs, l ∈ taken (f b) := by
  induction bs with
  | nil => simp
  | cons b bs ih => simp [ih]

end LockOp

/-! ### Many threads -/

/-- The threads, each with the locks that it has and what it has still to do. -/
structure Lockers (ι L : Type*) where
  held : ι → Multiset L
  todo : ι → List (LockOp L)

namespace Lockers

variable {ι L α : Type*} [DecidableEq ι] {c c' : Lockers ι L} {i j : ι} {is : List ι}

/-- Nobody has a lock. -/
def start (todo : ι → List (LockOp L)) : Lockers ι L := ⟨fun _ => 0, todo⟩

/-- Thread `i` has other locks, and less to do. -/
def put (c : Lockers ι L) (i : ι) (h : Multiset L) (ops : List (LockOp L)) : Lockers ι L :=
  ⟨Function.update c.held i h, Function.update c.todo i ops⟩

/-- Thread `i` takes a lock that nobody has, or gives one back. -/
inductive Step (c : Lockers ι L) (i : ι) : Lockers ι L → Prop
  | acquire {l : L} {ops : List (LockOp L)} : c.todo i = .acquire l :: ops →
      (∀ j, l ∉ c.held j) → Step c i (c.put i (l ::ₘ c.held i) ops)
  | release {l : L} {ops : List (LockOp L)} {h : Multiset L} : c.todo i = .release l :: ops →
      c.held i = l ::ₘ h → Step c i (c.put i h ops)

section order

variable [Preorder α] {rank : L → α}

/-- Every thread goes on in order, and ends with nothing. -/
def Disciplined (rank : L → α) (c : Lockers ι L) : Prop :=
  ∀ i, LockOp.Ordered rank (c.held i) (c.todo i) 0

lemma Disciplined.put (h : Disciplined rank c) {hs : Multiset L} {ops : List (LockOp L)}
    (ho : LockOp.Ordered rank hs ops 0) : Disciplined rank (c.put i hs ops) := by
  intro j
  by_cases hj : j = i
  · subst hj
    simpa [Lockers.put] using ho
  · simpa [Lockers.put, hj] using h j

lemma Disciplined.step (h : Disciplined rank c) (hs : Step c i c') : Disciplined rank c' := by
  have hi := h i
  cases hs with
  | acquire htodo hfree =>
    rw [htodo, LockOp.ordered_acquire] at hi
    exact h.put hi.2
  | release htodo hheld =>
    rw [htodo, hheld, LockOp.ordered_release] at hi
    obtain ⟨g, hg, ho⟩ := hi
    rw [(Multiset.cons_inj_right _).mp hg]
    exact h.put ho

/-- Some thread can go on whenever one waits for a lock. -/
lemma Disciplined.step_of_acquire [WellFoundedGT α] (h : Disciplined rank c) {l : L}
    {ops : List (LockOp L)} (hi : c.todo i = .acquire l :: ops) : ∃ j c', Step c j c' := by
  -- the holder of the lock goes on or waits for a lock of higher rank
  induction hr : rank l using WellFoundedGT.induction generalizing i l ops with
  | ind a ih =>
    by_cases hfree : ∀ j, l ∉ c.held j
    · exact ⟨i, _, .acquire hi hfree⟩
    · obtain ⟨j, hj⟩ := not_forall_not.mp hfree
      have ho := h j
      cases htodo : c.todo j with
      | nil =>
        rw [htodo, LockOp.ordered_nil] at ho
        rw [ho] at hj
        exact absurd hj (Multiset.notMem_zero l)
      | cons o ops' =>
        rw [htodo] at ho
        cases o with
        | acquire k => exact ih _ (hr ▸ (LockOp.ordered_acquire.mp ho).1 l hj) htodo rfl
        | release k =>
          obtain ⟨g, hg, -⟩ := LockOp.ordered_release.mp ho
          exact ⟨j, _, .release htodo hg⟩

/-- Threads that go on in order do not block each other: when none can go on, all are done. -/
theorem Disciplined.done_of_stuck [WellFoundedGT α] (h : Disciplined rank c)
    (hstuck : ∀ i c', ¬ Step c i c') (i : ι) : c.todo i = [] ∧ c.held i = 0 := by
  have ho := h i
  cases htodo : c.todo i with
  | nil =>
    rw [htodo, LockOp.ordered_nil] at ho
    exact ⟨rfl, ho⟩
  | cons o ops =>
    exfalso
    rw [htodo] at ho
    cases o with
    | acquire k =>
      obtain ⟨j, c', hs⟩ := h.step_of_acquire htodo
      exact hstuck j c' hs
    | release k =>
      obtain ⟨g, hg, -⟩ := LockOp.ordered_release.mp ho
      exact hstuck i _ (.release htodo hg)

lemma Disciplined.run (h : Disciplined rank c) (hr : Run Step c is c') : Disciplined rank c' :=
  hr.invariant (fun _ _ _ hc hs => hc.step hs) h

end order

/-! ### What is left to do -/

section work

variable [Fintype ι]

/-- The operations that are left. -/
def work (c : Lockers ι L) : ℕ := ∑ i, (c.todo i).length

lemma work_put {o : LockOp L} {ops : List (LockOp L)} {h : Multiset L} (hi : c.todo i = o :: ops) :
    work (c.put i h ops) + 1 = work c := by
  have hrest : ∑ j ∈ Finset.univ.erase i, ((c.put i h ops).todo j).length =
      ∑ j ∈ Finset.univ.erase i, (c.todo j).length :=
    Finset.sum_congr rfl fun j hj => by simp [put, Finset.ne_of_mem_erase hj]
  unfold work
  rw [← Finset.add_sum_erase _ _ (Finset.mem_univ i), hrest,
    ← Finset.add_sum_erase _ (fun j => (c.todo j).length) (Finset.mem_univ i), hi]
  simp [put]
  omega

lemma Step.work (hs : Step c i c') : c'.work + 1 = c.work := by
  cases hs with
  | acquire htodo _ => exact work_put htodo
  | release htodo _ => exact work_put htodo

/-- Each step does one operation. -/
lemma run_work (hr : Run Step c is c') : is.length + c'.work = c.work := by
  induction hr with
  | nil => simp
  | snoc _ hs ih =>
    rw [List.length_append, List.length_singleton, ← ih, ← hs.work]
    omega

end work

/-! ### Two threads that wait for each other -/

@[simp] lemma put_held_self {h : Multiset L} {ops : List (LockOp L)} :
    (c.put i h ops).held i = h := Function.update_self _ _ _

@[simp] lemma put_todo_self {h : Multiset L} {ops : List (LockOp L)} :
    (c.put i h ops).todo i = ops := Function.update_self _ _ _

lemma put_held_of_ne {h : Multiset L} {ops : List (LockOp L)} (hj : j ≠ i) :
    (c.put i h ops).held j = c.held j := Function.update_of_ne hj _ _

lemma put_todo_of_ne {h : Multiset L} {ops : List (LockOp L)} (hj : j ≠ i) :
    (c.put i h ops).todo j = c.todo j := Function.update_of_ne hj _ _

lemma put_put {h h' : Multiset L} {ops ops' : List (LockOp L)} :
    (c.put i h ops).put i h' ops' = c.put i h' ops' := by
  simp [put]

/-- A thread can go ahead while the others have none of the locks that it takes. -/
lemma run_leads {h h' : Multiset L} {x z : List (LockOp L)} (hx : LockOp.Leads h x h')
    (hheld : c.held i = h) (htodo : c.todo i = x ++ z)
    (hfree : ∀ l ∈ LockOp.taken x, ∀ j, j ≠ i → l ∉ c.held j) :
    ∃ is, Run Step c is (c.put i h' z) := by
  induction hx generalizing c with
  | @nil h₁ =>
    have hc : c.put i h₁ z = c := by
      rw [← hheld, ← show c.todo i = z from htodo]
      simp [put]
    rw [hc]
    exact ⟨[], .nil⟩
  | @acquire l h₁ h₂ y hl _ ih =>
    have hs : Step c i (c.put i (l ::ₘ c.held i) (y ++ z)) := by
      refine .acquire htodo fun j => ?_
      by_cases hj : j = i
      · rw [hj, hheld]
        exact hl
      · exact hfree l List.mem_cons_self j hj
    obtain ⟨is, hr⟩ := ih (c := c.put i (l ::ₘ c.held i) (y ++ z)) (by rw [put_held_self, hheld])
      put_todo_self fun k hk j hj => by
        rw [put_held_of_ne hj]
        exact hfree k (List.mem_cons_of_mem l hk) j hj
    rw [put_put] at hr
    exact ⟨_, (Run.nil.snoc hs).append hr⟩
  | @release l h₁ h₂ y _ ih =>
    have hs : Step c i (c.put i h₁ (y ++ z)) := .release htodo hheld
    obtain ⟨is, hr⟩ := ih (c := c.put i h₁ (y ++ z)) put_held_self put_todo_self
      fun k hk j hj => by
        rw [put_held_of_ne hj]
        exact hfree k hk j hj
    rw [put_put] at hr
    exact ⟨_, (Run.nil.snoc hs).append hr⟩

/-- Each of two threads waits for a lock that the other has. -/
structure Embrace (c : Lockers ι L) (i j : ι) (a b : L) : Prop where
  left : ∃ ops, c.todo i = .acquire a :: ops
  right : ∃ ops, c.todo j = .acquire b :: ops
  leftHeld : b ∈ c.held i
  rightHeld : a ∈ c.held j

variable {a b : L}

lemma Embrace.step {k : ι} (h : Embrace c i j a b) (hs : Step c k c') :
    Embrace c' i j a b ∧ k ≠ i ∧ k ≠ j := by
  obtain ⟨ops, hops⟩ := h.left
  obtain ⟨ops', hops'⟩ := h.right
  have hne : k ≠ i ∧ k ≠ j := by
    cases hs with
    | acquire htodo hfree =>
      constructor
      · rintro rfl
        obtain ⟨⟨rfl⟩, -⟩ := List.cons.inj (hops.symm.trans htodo)
        exact hfree j h.rightHeld
      · rintro rfl
        obtain ⟨⟨rfl⟩, -⟩ := List.cons.inj (hops'.symm.trans htodo)
        exact hfree i h.leftHeld
    | release htodo _ =>
      constructor
      · rintro rfl
        simp [hops] at htodo
      · rintro rfl
        simp [hops'] at htodo
  have hsame : ∀ u, u ≠ k → c'.held u = c.held u ∧ c'.todo u = c.todo u := by
    intro u hu
    cases hs <;> exact ⟨put_held_of_ne hu, put_todo_of_ne hu⟩
  obtain ⟨hi, hi'⟩ := hsame i hne.1.symm
  obtain ⟨hj, hj'⟩ := hsame j hne.2.symm
  exact ⟨⟨⟨ops, hi'.trans hops⟩, ⟨ops', hj'.trans hops'⟩, hi.symm ▸ h.leftHeld,
    hj.symm ▸ h.rightHeld⟩, hne⟩

/-- Neither of the two ever goes on. -/
lemma Embrace.run (h : Embrace c i j a b) (hr : Run Step c is c') : i ∉ is ∧ j ∉ is := by
  suffices Embrace c' i j a b ∧ i ∉ is ∧ j ∉ is from this.2
  induction hr with
  | nil => exact ⟨h, by simp, by simp⟩
  | snoc _ hs ih =>
    obtain ⟨hc, hi, hj⟩ := ih
    obtain ⟨hc', hki, hkj⟩ := hc.step hs
    exact ⟨hc', by simp [hi, hki.symm], by simp [hj, hkj.symm]⟩

end Lockers
