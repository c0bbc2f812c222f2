import FastMap.Lib.InsertionSort
import FastMap.System

/-!
# Taking a page off the free lists

Every CPU has a free list, and `alloc_page_lock` searches the nodes in the order of a row of
`__NUMA_DV__`. The `break` in it only ends the search of one node. The search goes on with the next
node, which overwrites what has been found. So the page that is returned comes from the last node
that has CPUs, and the pages that were unlinked on the way are lost.
-/

namespace FastMap

variable {C : Type*}

/-! ### `init_numa_distance_vector` -/

/-- The nodes of a machine: their distances, and the node of every CPU. -/
structure Topology where
  nodes : ℕ
  nodeDistance : ℕ → ℕ → ℕ
  nodeOf : ℕ → Fin nodes

namespace Topology

/-- The inner loop: entry `l` moves down as long as the one before it is farther away. -/
def sink (dist : ℕ → ℕ) : ℕ → (ℕ → ℕ) → ℕ → ℕ
  | 0, row => row
  | l + 1, row =>
    if dist (row (l + 1)) < dist (row l) then sink dist l (BinHeap.swap row l (l + 1)) else row

/-- A row of `__NUMA_DV__`. -/
def numaDv (T : Topology) (j : ℕ) : List ℕ :=
  (List.range T.nodes).map
    ((List.range' 1 (T.nodes - 1)).foldl (fun row k => sink (T.nodeDistance j) k row) id)

/-- `cpumask_of_node` on a machine with `ncpus` CPUs. -/
def cpumaskOfNode (T : Topology) (ncpus node : ℕ) : List ℕ :=
  (List.range ncpus).filter fun cpu => (T.nodeOf cpu : ℕ) = node

lemma sink_eq (dist : ℕ → ℕ) (l : ℕ) (row : ℕ → ℕ) :
    sink dist l row = InsertionSort.sink (fun a b => dist a < dist b) l row := by
  induction l generalizing row with
  | zero => rfl
  | succ l ih => simp only [sink, InsertionSort.sink, ih]

/-- A row is the result of an insertion sort. -/
lemma numaDv_eq (T : Topology) (j : ℕ) :
    T.numaDv j = (List.range T.nodes).map
      (InsertionSort.sortUpTo (fun a b => T.nodeDistance j a < T.nodeDistance j b)
        (T.nodes - 1) id) := by
  have hloop : ∀ k, (List.range' 1 k).foldl (fun row k => sink (T.nodeDistance j) k row) id =
      InsertionSort.sortUpTo (fun a b => T.nodeDistance j a < T.nodeDistance j b) k id := by
    intro k
    induction k with
    | zero => rfl
    | succ k ih =>
      rw [List.range'_1_concat, List.foldl_append, ih, List.foldl_cons, List.foldl_nil, sink_eq,
        InsertionSort.sortUpTo, Nat.add_comm]
  rw [numaDv, hloop]

/-- A row is a permutation of the nodes. -/
lemma perm_numaDv (T : Topology) (j : ℕ) : (T.numaDv j).Perm (List.range T.nodes) := by
  rw [numaDv_eq]
  exact InsertionSort.perm_sortUpTo _ T.nodes

lemma nodup_numaDv (T : Topology) (j : ℕ) : (T.numaDv j).Nodup :=
  (T.perm_numaDv j).nodup_iff.mpr List.nodup_range

lemma mem_cpumaskOfNode {T : Topology} {ncpus node cpu : ℕ} :
    cpu ∈ T.cpumaskOfNode ncpus node ↔ cpu < ncpus ∧ (T.nodeOf cpu : ℕ) = node := by
  simp [cpumaskOfNode]

end Topology

/-- The machine with the given nodes. -/
def Env.onTopology (e : Env C) (T : Topology) : Env C :=
  { e with numaDv := T.numaDv, cpumaskOfNode := T.cpumaskOfNode e.ncpus }

/-- The order in which the free lists are searched. -/
def Env.searchOrder (e : Env C) (node : ℕ) : List ℕ := (e.numaDv node).flatMap e.cpumaskOfNode

lemma Env.mem_searchOrder {e : Env C} {T : Topology} {node cpu : ℕ} :
    cpu ∈ (e.onTopology T).searchOrder node ↔ cpu < e.ncpus := by
  simp only [searchOrder, onTopology, List.mem_flatMap, Topology.mem_cpumaskOfNode]
  constructor
  · rintro ⟨_, -, hcpu, -⟩
    exact hcpu
  · intro hcpu
    refine ⟨_, ?_, hcpu, rfl⟩
    rw [(T.perm_numaDv node).mem_iff]
    exact List.mem_range.mpr (T.nodeOf cpu).2

namespace State

variable {e : Env C} {s s' : State C} {p : PageId}

/-! ### One list -/

lemma takeFree_of_empty {cpus : List ℕ} (h : ∀ cpu ∈ cpus, s.fl cpu = []) (more : List ℕ) :
    s.takeFree (cpus ++ more) = s.takeFree more := by
  induction cpus with
  | nil => rfl
  | cons cpu cpus ih =>
    rw [List.cons_append, takeFree, h cpu List.mem_cons_self]
    exact ih fun c hc => h c (List.mem_cons_of_mem _ hc)

/-- What a search of some lists does. -/
lemma takeFree_cases (s : State C) (cpus : List ℕ) :
    (s.takeFree cpus = (none, s) ∧ ∀ cpu ∈ cpus, s.fl cpu = []) ∨
    ∃ before cpu after p rest, cpus = before ++ cpu :: after ∧ (∀ c ∈ before, s.fl c = []) ∧
      s.fl cpu = p :: rest ∧ (s.takeFree cpus).1 = some p ∧
      (s.takeFree cpus).2.fl = Function.update s.fl cpu rest ∧
      ((s.takeFree cpus).2.pages p).cpuid = cpu := by
  induction cpus with
  | nil => exact Or.inl ⟨rfl, by simp⟩
  | cons cpu cpus ih =>
    cases hl : s.fl cpu with
    | nil =>
      have hrest : s.takeFree (cpu :: cpus) = s.takeFree cpus := by simp only [takeFree, hl]
      rw [hrest]
      rcases ih with ⟨hnone, hempty⟩ | ⟨before, c, after, p, rest, rfl, hbefore, hp⟩
      · refine Or.inl ⟨hnone, fun c hc => ?_⟩
        rcases List.mem_cons.mp hc with rfl | hc
        · exact hl
        · exact hempty c hc
      · refine Or.inr ⟨cpu :: before, c, after, p, rest, rfl, fun c' hc' => ?_, hp⟩
        rcases List.mem_cons.mp hc' with rfl | hc'
        · exact hl
        · exact hbefore c' hc'
    | cons p rest =>
      refine Or.inr ⟨[], cpu, cpus, p, rest, rfl, by simp, hl, ?_, ?_, ?_⟩
      · simp only [takeFree, hl]
      · simp only [takeFree, hl, modifyPage]
      · simp only [takeFree, hl, modifyPage, Function.update_self]

/-! ### All nodes -/

/-- Only the last one of the nodes that have CPUs has free pages. -/
def FreeOnLast (e : Env C) (s : State C) (nodes : List ℕ) : Prop :=
  ∀ before node after, nodes = before ++ node :: after →
    (∃ n ∈ after, e.cpumaskOfNode n ≠ []) → ∀ cpu ∈ e.cpumaskOfNode node, s.fl cpu = []

lemma FreeOnLast.tail {node : ℕ} {nodes : List ℕ} (h : FreeOnLast e s (node :: nodes)) :
    FreeOnLast e s nodes := by
  rintro before n after rfl
  exact h (node :: before) n after rfl

/-- Nodes without CPUs change nothing. -/
lemma scanNodes_of_noCpus {nodes : List ℕ} (h : ∀ n ∈ nodes, e.cpumaskOfNode n = [])
    (found : Option PageId) : s.scanNodes e nodes found = (found, s) := by
  induction nodes with
  | nil => rfl
  | cons node nodes ih =>
    simp only [scanNodes, h node List.mem_cons_self]
    exact ih fun n hn => h n (List.mem_cons_of_mem _ hn)

lemma scanNodes_cons {node : ℕ} (nodes : List ℕ) (found : Option PageId)
    (h : e.cpumaskOfNode node ≠ []) :
    s.scanNodes e (node :: nodes) found =
      (s.takeFree (e.cpumaskOfNode node)).2.scanNodes e nodes
        (s.takeFree (e.cpumaskOfNode node)).1 := by
  cases hc : e.cpumaskOfNode node with
  | nil => exact absurd hc h
  | cons cpu cpus => simp only [scanNodes, hc]

lemma scanNodes_append (nodes more : List ℕ) (found : Option PageId) :
    s.scanNodes e (nodes ++ more) found =
      (s.scanNodes e nodes found).2.scanNodes e more (s.scanNodes e nodes found).1 := by
  induction nodes generalizing s found with
  | nil => rfl
  | cons node nodes ih =>
    rw [List.cons_append]
    by_cases hc : e.cpumaskOfNode node = []
    · simp only [scanNodes, hc]
      exact ih found
    · rw [scanNodes_cons _ found hc, scanNodes_cons _ found hc]
      exact ih _

/-- Then the search is one through all lists in order. -/
lemma scanNodes_eq_takeFree {nodes : List ℕ} (h : FreeOnLast e s nodes) :
    s.scanNodes e nodes none = s.takeFree (nodes.flatMap e.cpumaskOfNode) := by
  induction nodes with
  | nil => rfl
  | cons node nodes ih =>
    rw [List.flatMap_cons]
    by_cases hc : e.cpumaskOfNode node = []
    · rw [hc, List.nil_append, ← ih h.tail]
      simp only [scanNodes, hc]
    · rw [scanNodes_cons nodes none hc]
      by_cases hlater : ∃ n ∈ nodes, e.cpumaskOfNode n ≠ []
      · have hempty := h [] node nodes rfl hlater
        have hnone : s.takeFree (e.cpumaskOfNode node) = (none, s) := by
          have := takeFree_of_empty hempty []
          rwa [List.append_nil] at this
        rw [hnone, takeFree_of_empty hempty]
        exact ih h.tail
      · have hno : ∀ n ∈ nodes, e.cpumaskOfNode n = [] := by
          intro n hn
          by_contra hne
          exact hlater ⟨n, hn, hne⟩
        rw [scanNodes_of_noCpus hno, List.flatMap_eq_nil_iff.mpr hno, List.append_nil]

lemma fl_length_takeFree (s : State C) (cpus : List ℕ) (c : ℕ) :
    ((s.takeFree cpus).2.fl c).length ≤ (s.fl c).length := by
  rcases s.takeFree_cases cpus with ⟨hnone, -⟩ | ⟨_, cpu, _, p, rest, -, -, hl, -, hfl, -⟩
  · rw [hnone]
  · rw [hfl]
    by_cases hc : c = cpu
    · rw [hc, Function.update_self, hl]
      simp
    · rw [Function.update_of_ne hc]

lemma fl_length_scanNodes (s : State C) (nodes : List ℕ) (found : Option PageId) (c : ℕ) :
    ((s.scanNodes e nodes found).2.fl c).length ≤ (s.fl c).length := by
  induction nodes generalizing s found with
  | nil => exact le_rfl
  | cons node nodes ih =>
    by_cases hc : e.cpumaskOfNode node = []
    · simpa only [scanNodes, hc] using ih s found
    · rw [scanNodes_cons nodes found hc]
      exact (ih _ _).trans (s.fl_length_takeFree _ c)

/-- A search takes a page off a list, if there is one. -/
lemma exists_shorter_takeFree {cpus : List ℕ} {cpu : ℕ} (hc : cpu ∈ cpus) (hne : s.fl cpu ≠ []) :
    ∃ c ∈ cpus, ((s.takeFree cpus).2.fl c).length < (s.fl c).length := by
  rcases s.takeFree_cases cpus with ⟨-, hempty⟩ | ⟨before, c, after, p, rest, rfl, -, hl, -, hfl, -⟩
  · exact absurd (hempty cpu hc) hne
  · refine ⟨c, by simp, ?_⟩
    rw [hfl, Function.update_self, hl]
    simp

/-- Every node that has free pages loses one. -/
lemma exists_shorter_scanNodes {nodes : List ℕ} {found : Option PageId} {node cpu : ℕ}
    (hn : node ∈ nodes) (hc : cpu ∈ e.cpumaskOfNode node) (hne : s.fl cpu ≠ []) :
    ∃ c ∈ e.cpumaskOfNode node, ((s.scanNodes e nodes found).2.fl c).length < (s.fl c).length := by
  induction nodes generalizing s found with
  | nil => simp at hn
  | cons n nodes ih =>
    by_cases hcpus : e.cpumaskOfNode n = []
    · have hnn : node ≠ n := by
        rintro rfl
        simp [hcpus] at hc
      simp only [scanNodes, hcpus]
      exact ih ((List.mem_cons.mp hn).resolve_left hnn) hne
    · rw [scanNodes_cons nodes found hcpus]
      set t := (s.takeFree (e.cpumaskOfNode n)).2
      by_cases hempty : t.fl cpu = []
      · -- the list has been emptied already
        refine ⟨cpu, hc, (fl_length_scanNodes _ _ _ cpu).trans_lt ?_⟩
        rw [hempty]
        exact List.length_pos_iff.mpr hne
      · rcases List.mem_cons.mp hn with rfl | hn
        · obtain ⟨c, hc', hlt⟩ := exists_shorter_takeFree hc hne
          exact ⟨c, hc', (fl_length_scanNodes _ _ _ c).trans_lt hlt⟩
        · obtain ⟨c, hc', hlt⟩ := ih hn hempty
          exact ⟨c, hc', hlt.trans_le (s.fl_length_takeFree _ c)⟩

/-- A page that is found after other nodes have been searched comes from one of the rest. -/
lemma exists_shorter_of_found {nodes : List ℕ} {found : Option PageId}
    (h : ∃ n ∈ nodes, e.cpumaskOfNode n ≠ []) (hp : (s.scanNodes e nodes found).1 = some p) :
    ∃ n ∈ nodes, ∃ c ∈ e.cpumaskOfNode n,
      ((s.scanNodes e nodes found).2.fl c).length < (s.fl c).length := by
  induction nodes generalizing s found with
  | nil => simp at h
  | cons node nodes ih =>
    by_cases hcpus : e.cpumaskOfNode node = []
    · have hlater : ∃ n ∈ nodes, e.cpumaskOfNode n ≠ [] := by
        obtain ⟨n, hn, hne⟩ := h
        rcases List.mem_cons.mp hn with rfl | hn
        · exact absurd hcpus hne
        · exact ⟨n, hn, hne⟩
      simp only [scanNodes, hcpus] at hp ⊢
      obtain ⟨n, hn, hc⟩ := ih hlater hp
      exact ⟨n, List.mem_cons_of_mem _ hn, hc⟩
    · rw [scanNodes_cons nodes found hcpus] at hp ⊢
      by_cases hlater : ∃ n ∈ nodes, e.cpumaskOfNode n ≠ []
      · obtain ⟨n, hn, c, hc, hlt⟩ := ih hlater hp
        exact ⟨n, List.mem_cons_of_mem _ hn, c, hc, hlt.trans_le (s.fl_length_takeFree _ c)⟩
      · have hno : ∀ n ∈ nodes, e.cpumaskOfNode n = [] := by
          intro n hn
          by_contra hne
          exact hlater ⟨n, hn, hne⟩
        rw [scanNodes_of_noCpus hno] at hp ⊢
        rcases s.takeFree_cases (e.cpumaskOfNode node) with
          ⟨hnone, -⟩ | ⟨before, c, after, q, rest, hsplit, -, hl, -, hfl, -⟩
        · rw [hnone] at hp
          exact absurd hp (by simp)
        · refine ⟨node, List.mem_cons_self, c, by rw [hsplit]; simp, ?_⟩
          rw [hfl, Function.update_self, hl]
          simp

/-! ### `alloc_page_lock` -/

/-- `alloc_page_lock` takes one page, from the first list that has one. -/
structure AllocatesOne (e : Env C) (s : State C) (node : ℕ) (offset : Pgoff) (v : PvdId) :
    Prop where
  null_iff : (s.allocPageLock e node offset v).1 = none ↔ ∀ cpu < e.ncpus, s.fl cpu = []
  null_fl : (s.allocPageLock e node offset v).1 = none →
    (s.allocPageLock e node offset v).2.fl = s.fl
  found {p : PageId} : (s.allocPageLock e node offset v).1 = some p →
    ∃ before cpu after rest, e.searchOrder node = before ++ cpu :: after ∧
      (∀ c ∈ before, s.fl c = []) ∧ s.fl cpu = p :: rest ∧
      (s.allocPageLock e node offset v).2.fl = Function.update s.fl cpu rest ∧
      ((s.allocPageLock e node offset v).2.pages p).cpuid = cpu

lemma allocPageLock_eq (e : Env C) (s : State C) (node : ℕ) (offset : Pgoff) (v : PvdId) :
    (s.allocPageLock e node offset v).1 = (s.scanNodes e (e.numaDv node) none).1 ∧
    (s.allocPageLock e node offset v).2.fl = (s.scanNodes e (e.numaDv node) none).2.fl ∧
    ∀ p, ((s.allocPageLock e node offset v).2.pages p).cpuid =
      ((s.scanNodes e (e.numaDv node) none).2.pages p).cpuid := by
  simp only [allocPageLock]
  rcases s.scanNodes e (e.numaDv node) none with ⟨_ | q, t⟩
  · exact ⟨rfl, rfl, fun _ => rfl⟩
  · refine ⟨rfl, rfl, fun p => ?_⟩
    by_cases hp : p = q
    · simp [hp, modifyPage]
    · simp [hp, modifyPage]

/-- It does so exactly when only the last node in the row that has CPUs has free pages. -/
theorem allocatesOne_iff (e : Env C) (T : Topology) (s : State C) (node : ℕ) (offset : Pgoff)
    (v : PvdId) :
    AllocatesOne (e.onTopology T) s node offset v ↔
      FreeOnLast (e.onTopology T) s (T.numaDv node) := by
  obtain ⟨hres, hfl, hcpuid⟩ := allocPageLock_eq (e.onTopology T) s node offset v
  rw [show (e.onTopology T).numaDv node = T.numaDv node from rfl] at hres hfl hcpuid
  constructor
  · intro h before n after hrow hlater cpu hcpu
    by_contra hne
    have hn : n ∈ T.numaDv node := by simp [hrow]
    have hlt : cpu < e.ncpus := (Topology.mem_cpumaskOfNode.mp hcpu).1
    cases hp : (s.allocPageLock (e.onTopology T) node offset v).1 with
    | none => exact hne (h.null_iff.mp hp cpu hlt)
    | some p =>
      -- two lists have become shorter, on different nodes
      obtain ⟨_, c, _, rest, -, -, -, hupdate, -⟩ := h.found hp
      have honly : ∀ c', ((s.scanNodes (e.onTopology T) (T.numaDv node) none).2.fl c').length <
          (s.fl c').length → c' = c := by
        intro c' hlt
        by_contra hc'
        rw [← hfl, hupdate, Function.update_of_ne hc'] at hlt
        exact lt_irrefl _ hlt
      obtain ⟨c₁, hc₁, hlt₁⟩ := exists_shorter_scanNodes hn hcpu hne
      have hsplit : T.numaDv node = (before ++ [n]) ++ after := by rw [hrow, List.append_assoc]; rfl
      have hscan := scanNodes_append (e := e.onTopology T) (s := s) (before ++ [n]) after none
      rw [← hsplit] at hscan
      rw [hres, hscan] at hp
      obtain ⟨m, hm, c₂, hc₂, hlt₂⟩ := exists_shorter_of_found hlater hp
      rw [← hscan] at hlt₂
      have heq₁ := honly c₁ hlt₁
      have heq₂ := honly c₂ (hlt₂.trans_le (fl_length_scanNodes _ _ _ c₂))
      have hnm : n = m := by
        rw [← (Topology.mem_cpumaskOfNode.mp hc₁).2, ← (Topology.mem_cpumaskOfNode.mp hc₂).2, heq₁,
          heq₂]
      have hnodup := T.nodup_numaDv node
      rw [hrow] at hnodup
      exact (List.nodup_cons.mp (List.nodup_append.mp hnodup).2.1).1 (hnm ▸ hm)
  · intro h
    have hscan : s.scanNodes (e.onTopology T) (T.numaDv node) none =
        s.takeFree ((e.onTopology T).searchOrder node) := scanNodes_eq_takeFree h
    rw [hscan] at hres hfl hcpuid
    have hall : (∀ cpu ∈ (e.onTopology T).searchOrder node, s.fl cpu = []) ↔
        ∀ cpu < (e.onTopology T).ncpus, s.fl cpu = [] := by
      simp only [Env.mem_searchOrder]
      rfl
    rcases s.takeFree_cases ((e.onTopology T).searchOrder node) with
      ⟨hnone, hempty⟩ | ⟨before, cpu, after, p, rest, hsplit, hbefore, hl, hp, hupdate, hid⟩
    · rw [hnone] at hres hfl
      exact ⟨⟨fun _ => hall.mp hempty, fun _ => hres⟩, fun _ => hfl, fun hp => by simp [hres] at hp⟩
    · rw [hp] at hres
      refine ⟨⟨fun hn => by simp [hres] at hn, fun he => ?_⟩, fun hn => by simp [hres] at hn, ?_⟩
      · have := hall.mpr he cpu (by rw [hsplit]; simp)
        rw [hl] at this
        exact absurd this (by simp)
      · intro q hq
        obtain rfl : p = q := Option.some_injective _ (hres.symm.trans hq)
        exact ⟨before, cpu, after, rest, hsplit, hbefore, hl, hfl.trans hupdate,
          (hcpuid p).trans hid⟩

/-- Two nodes with one CPU each. -/
def twoNodes : Topology where
  nodes := 2
  nodeDistance i j := if i = j then 10 else 20
  nodeOf cpu := if cpu = 0 then 0 else 1

def twoCpuEnv : Env ℕ := { smallEnv with ncpus := 2, ncpus_pos := Nat.two_pos }

/-- One page is free, on the list of CPU 0. -/
def onePageFree : State ℕ :=
  { initParams twoCpuEnv smallWorld with fl := fun cpu => if cpu = 0 then [0] else [] }

/-- A thread on node 0 finds the page, goes on to node 1, and returns nothing. The page is lost. -/
theorem allocPageLock_loses_page :
    ¬ ∀ (e : Env ℕ) (T : Topology) (s : State ℕ) (node : ℕ) (offset : Pgoff) (v : PvdId),
      AllocatesOne (e.onTopology T) s node offset v := by
  intro hall
  have h := hall twoCpuEnv twoNodes onePageFree 0 0 0
  have hnull : (onePageFree.allocPageLock (twoCpuEnv.onTopology twoNodes) 0 0 0).1 = none := by
    decide
  exact absurd (h.null_iff.mp hnull 0 (by decide)) (by decide)

end State

end FastMap
