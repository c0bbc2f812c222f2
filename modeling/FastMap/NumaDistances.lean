import FastMap.FreeLists
import FastMap.Lib.Loop

/-!
# The distance vector

`__NUMA_DV__` is an array of `nodes * nodes` entries, row after row. `init_numa_distance_vector`
sorts row `j` by the distance of the nodes from node `j`. Its loops run on the one array here, and
every access that is made for row `j` is checked against the bounds of that row. The distances may
be of any ordered type, and the array may hold anything before.
-/

namespace FastMap

namespace NumaDv

/-! ### `init_numa_distance_vector` -/

/-- The position of an entry of row `j`. -/
def position (nodes j k : ℕ) : ℕ := j * nodes + k

/-- The position lies in row `j`. -/
def InRow (nodes j i : ℕ) : Prop := position nodes j 0 ≤ i ∧ i < position nodes (j + 1) 0

instance (nodes j i : ℕ) : Decidable (InRow nodes j i) :=
  inferInstanceAs (Decidable (_ ∧ _))

/-- A loop counter, and the array. -/
structure Cursor where
  counter : ℕ
  dv : ℕ → ℕ

/-- `__NUMA_DV__[i]`, read for row `j`. -/
def readAt (nodes j : ℕ) (dv : ℕ → ℕ) (i : ℕ) : Option ℕ :=
  if InRow nodes j i then some (dv i) else none

/-- Assignment to `__NUMA_DV__[i]` for row `j`. -/
def writeAt (nodes j : ℕ) (dv : ℕ → ℕ) (i x : ℕ) : Option (ℕ → ℕ) :=
  if InRow nodes j i then some (Function.update dv i x) else none

/-- The condition of the loops that count up to the number of nodes. -/
def below (nodes : ℕ) (s : Cursor) : Option Bool := some (s.counter < nodes)

/-- The body of the loop that fills row `j`. -/
def fillEntry (nodes j : ℕ) (s : Cursor) : Option Cursor := do
  let dv ← writeAt nodes j s.dv (position nodes j s.counter) s.counter
  some ⟨s.counter + 1, dv⟩

variable {κ : Type*} [LinearOrder κ]

/-- The condition of the inner loop. The entries are read only when `l` is not zero. -/
def outOfOrder (nodes : ℕ) (nodeDistance : ℕ → ℕ → κ) (j : ℕ) (s : Cursor) : Option Bool :=
  if 0 < s.counter then do
    let a ← readAt nodes j s.dv (position nodes j s.counter - 1)
    let b ← readAt nodes j s.dv (position nodes j s.counter)
    some (nodeDistance j b < nodeDistance j a)
  else some false

/-- The body of the inner loop. -/
def exchange (nodes j : ℕ) (s : Cursor) : Option Cursor := do
  let temp ← readAt nodes j s.dv (position nodes j s.counter - 1)
  let b ← readAt nodes j s.dv (position nodes j s.counter)
  let dv ← writeAt nodes j s.dv (position nodes j s.counter - 1) b
  let dv ← writeAt nodes j dv (position nodes j s.counter) temp
  some ⟨s.counter - 1, dv⟩

/-- The body of the loop that sorts row `j`. -/
def sortEntry (nodes : ℕ) (nodeDistance : ℕ → ℕ → κ) (fuel j : ℕ) (s : Cursor) :
    Option Cursor := do
  let t ← Loop.run (outOfOrder nodes nodeDistance j) (exchange nodes j) fuel s
  some ⟨s.counter + 1, t.dv⟩

/-- The body of the loop over the rows. -/
def initRow (nodes : ℕ) (nodeDistance : ℕ → ℕ → κ) (fuel : ℕ) (s : Cursor) : Option Cursor := do
  let t ← Loop.run (below nodes) (fillEntry nodes s.counter) fuel ⟨0, s.dv⟩
  let t ← Loop.run (below nodes) (sortEntry nodes nodeDistance fuel s.counter) fuel ⟨1, t.dv⟩
  some ⟨s.counter + 1, t.dv⟩

/-- `init_numa_distance_vector`, where no loop tests its condition more than `fuel` times. -/
def initNumaDistanceVector (nodes : ℕ) (nodeDistance : ℕ → ℕ → κ) (fuel : ℕ) (dv : ℕ → ℕ) :
    Option (ℕ → ℕ) := do
  let t ← Loop.run (below nodes) (initRow nodes nodeDistance fuel) fuel ⟨0, dv⟩
  some t.dv

/-! ### One row -/

/-- The array with other entries in row `j`. -/
def setRow (nodes j : ℕ) (row : ℕ → ℕ) (dv : ℕ → ℕ) : ℕ → ℕ :=
  fun i => if InRow nodes j i then row (i - position nodes j 0) else dv i

variable {nodes fuel i j j' k l x : ℕ} {nodeDistance : ℕ → ℕ → κ} {row row' dv : ℕ → ℕ}

lemma position_succ (nodes j k : ℕ) : position nodes (j + 1) k = position nodes j (nodes + k) := by
  rw [position, position, Nat.succ_mul, Nat.add_assoc]

lemma position_lt (hj : j < nodes) (hk : k < nodes) : position nodes j k < nodes * nodes := by
  have hle : (j + 1) * nodes ≤ nodes * nodes := Nat.mul_le_mul_right nodes hj
  rw [Nat.succ_mul] at hle
  unfold position
  omega

/-- Positions are computed as an `int`. This does not overflow in an array of at most `2 ^ 31`
entries, and the kernel has at most 1024 nodes. -/
lemma int32_position (hn : nodes * nodes ≤ 2 ^ 31) (hj : j < nodes) (hk : k < nodes) :
    State.int32 (j * nodes + k) = position nodes j k := by
  have hlt := (position_lt hj hk).trans_le hn
  have hcast : (j * nodes + k : ℤ) = (position nodes j k : ℕ) := by simp [position]
  rw [hcast, State.int32]
  exact Int.bmod_eq_of_le (by omega) (by omega)

lemma inRow_iff : InRow nodes j i ↔ ∃ k < nodes, i = position nodes j k := by
  rw [InRow, position_succ]
  unfold position
  constructor
  · rintro ⟨hle, hlt⟩
    exact ⟨i - j * nodes, by omega, by omega⟩
  · rintro ⟨k, hk, rfl⟩
    omega

lemma inRow_position (hk : k < nodes) : InRow nodes j (position nodes j k) :=
  inRow_iff.mpr ⟨k, hk, rfl⟩

/-- Rows do not overlap. -/
lemma not_inRow_position (hk : k < nodes) (hj : j' ≠ j) :
    ¬ InRow nodes j' (position nodes j k) := by
  intro hin
  obtain ⟨k', hk', heq⟩ := inRow_iff.mp hin
  unfold position at heq
  -- the row of a position is its quotient by the length of a row
  have hpos : 0 < nodes := Nat.zero_lt_of_lt hk
  have hdiv := congrArg (· / nodes) heq
  simp only [Nat.add_comm (_ * nodes), Nat.add_mul_div_right _ _ hpos, Nat.div_eq_of_lt hk,
    Nat.div_eq_of_lt hk', Nat.zero_add] at hdiv
  exact hj hdiv.symm

lemma setRow_position (hk : k < nodes) : setRow nodes j row dv (position nodes j k) = row k := by
  rw [setRow, if_pos (inRow_position hk)]
  congr 1
  unfold position
  omega

lemma setRow_other (hk : k < nodes) (hj : j' ≠ j) :
    setRow nodes j' row dv (position nodes j k) = dv (position nodes j k) :=
  if_neg (not_inRow_position hk hj)

lemma setRow_congr (h : ∀ k < nodes, row k = row' k) :
    setRow nodes j row dv = setRow nodes j row' dv := by
  funext i
  by_cases hin : InRow nodes j i
  · obtain ⟨k, hk, rfl⟩ := inRow_iff.mp hin
    rw [setRow_position hk, setRow_position hk, h k hk]
  · rw [setRow, setRow, if_neg hin, if_neg hin]

lemma setRow_self (nodes j : ℕ) (dv : ℕ → ℕ) :
    setRow nodes j (fun k => dv (position nodes j k)) dv = dv := by
  funext i
  by_cases hin : InRow nodes j i
  · obtain ⟨k, hk, rfl⟩ := inRow_iff.mp hin
    rw [setRow_position hk]
  · rw [setRow, if_neg hin]

lemma update_setRow (hk : k < nodes) :
    Function.update (setRow nodes j row dv) (position nodes j k) x =
      setRow nodes j (Function.update row k x) dv := by
  funext i
  by_cases hin : InRow nodes j i
  · obtain ⟨k', hk', rfl⟩ := inRow_iff.mp hin
    rw [setRow_position hk']
    by_cases hkk : k' = k
    · rw [hkk, Function.update_self, Function.update_self]
    · have hne : position nodes j k' ≠ position nodes j k := by
        unfold position
        omega
      rw [Function.update_of_ne hne, Function.update_of_ne hkk, setRow_position hk']
  · have hne : i ≠ position nodes j k := by
      rintro rfl
      exact hin (inRow_position hk)
    rw [Function.update_of_ne hne, setRow, setRow, if_neg hin, if_neg hin]

lemma readAt_setRow (hk : k < nodes) :
    readAt nodes j (setRow nodes j row dv) (position nodes j k) = some (row k) := by
  rw [readAt, if_pos (inRow_position hk), setRow_position hk]

lemma writeAt_setRow (hk : k < nodes) :
    writeAt nodes j (setRow nodes j row dv) (position nodes j k) x =
      some (setRow nodes j (Function.update row k x) dv) := by
  rw [writeAt, if_pos (inRow_position hk), update_setRow hk]

/-! ### The loops -/

/-- Node `b` is nearer to node `j` than node `a`. -/
abbrev Nearer (nodeDistance : ℕ → ℕ → κ) (j b a : ℕ) : Prop := nodeDistance j b < nodeDistance j a

/-- The entries of row `j` when the first `k + 1` of them are in order. -/
def sortedRow (nodeDistance : ℕ → ℕ → κ) (j k : ℕ) : ℕ → ℕ :=
  InsertionSort.sortUpTo (Nearer nodeDistance j) k id

lemma outOfOrder_zero : outOfOrder nodes nodeDistance j ⟨0, dv⟩ = some false := rfl

lemma outOfOrder_succ (nodeDistance : ℕ → ℕ → κ) (j : ℕ) (row dv : ℕ → ℕ) (hl : l + 1 < nodes) :
    outOfOrder nodes nodeDistance j ⟨l + 1, setRow nodes j row dv⟩ =
      some (decide (Nearer nodeDistance j (row (l + 1)) (row l))) := by
  have hprev : position nodes j (l + 1) - 1 = position nodes j l := rfl
  simp only [outOfOrder, Nat.succ_pos, if_true, hprev, readAt_setRow hl,
    readAt_setRow (Nat.lt_of_succ_lt hl), Option.bind_eq_bind, Option.bind_some]

lemma exchange_succ (hl : l + 1 < nodes) :
    exchange nodes j ⟨l + 1, setRow nodes j row dv⟩ =
      some ⟨l, setRow nodes j (BinHeap.swap row l (l + 1)) dv⟩ := by
  have hprev : position nodes j (l + 1) - 1 = position nodes j l := rfl
  have hl' := Nat.lt_of_succ_lt hl
  simp only [exchange, hprev, readAt_setRow hl, readAt_setRow hl', writeAt_setRow hl',
    writeAt_setRow hl, Option.bind_eq_bind, Option.bind_some]
  rfl

/-- The inner loop lets an entry sink to its place. -/
lemma run_exchange (nodeDistance : ℕ → ℕ → κ) (j : ℕ) (row dv : ℕ → ℕ) (hl : l < nodes)
    (hfuel : l < fuel) :
    ∃ l', Loop.run (outOfOrder nodes nodeDistance j) (exchange nodes j) fuel
      ⟨l, setRow nodes j row dv⟩ =
        some ⟨l', setRow nodes j (InsertionSort.sink (Nearer nodeDistance j) l row) dv⟩ := by
  induction l generalizing row fuel with
  | zero =>
    obtain ⟨fuel, rfl⟩ := Nat.exists_eq_succ_of_ne_zero hfuel.ne'
    exact ⟨0, Loop.run_of_false outOfOrder_zero⟩
  | succ l ih =>
    obtain ⟨fuel, rfl⟩ := Nat.exists_eq_succ_of_ne_zero (Nat.ne_zero_of_lt hfuel)
    have hcond := outOfOrder_succ nodeDistance j row dv hl
    rw [InsertionSort.sink]
    split_ifs with hnear
    · obtain ⟨l', hrun⟩ := ih (BinHeap.swap row l (l + 1)) (Nat.lt_of_succ_lt hl)
        (Nat.lt_of_succ_lt_succ hfuel)
      refine ⟨l', ?_⟩
      rw [← hrun]
      exact Loop.run_of_true (by rw [hcond, decide_eq_true hnear]) (exchange_succ hl)
    · exact ⟨l + 1, Loop.run_of_false (by rw [hcond, decide_eq_false hnear])⟩

lemma below_of_lt (hk : k < nodes) : below nodes ⟨k, dv⟩ = some true := by
  simp only [below, hk, decide_true]

lemma below_of_le (hk : nodes ≤ k) : below nodes ⟨k, dv⟩ = some false := by
  simp only [below, hk.not_gt, decide_false]

/-- The first loop numbers the entries of the row. -/
lemma run_fillEntry (j : ℕ) (dv : ℕ → ℕ) (hfuel : nodes < fuel) :
    Loop.run (below nodes) (fillEntry nodes j) fuel ⟨0, dv⟩ =
      some ⟨nodes, setRow nodes j id dv⟩ := by
  let f : ℕ → Cursor := fun k =>
    ⟨k, setRow nodes j (fun i => if i < k then i else dv (position nodes j i)) dv⟩
  have hstart : (⟨0, dv⟩ : Cursor) = f 0 := by
    simp only [f, Nat.not_lt_zero, if_false, setRow_self]
  have hend : f nodes = ⟨nodes, setRow nodes j id dv⟩ := by
    have hid : setRow nodes j (fun i => if i < nodes then i else dv (position nodes j i)) dv =
        setRow nodes j id dv := setRow_congr fun k hk => if_pos hk
    simp only [f, hid]
  rw [hstart, ← hend]
  refine Loop.run_eq_of_states (fun k hk => below_of_lt hk) (fun k hk => ?_)
    (below_of_le (le_refl nodes)) hfuel
  simp only [f, fillEntry, writeAt_setRow hk, Option.bind_eq_bind, Option.bind_some]
  congr 3
  funext i
  rcases lt_trichotomy i k with hik | rfl | hik
  · rw [Function.update_of_ne hik.ne, if_pos hik, if_pos (Nat.lt_succ_of_lt hik)]
  · rw [Function.update_self, if_pos (Nat.lt_succ_self i)]
  · rw [Function.update_of_ne hik.ne', if_neg hik.not_gt, if_neg (Nat.not_lt.mpr hik)]

/-- The second loop sorts the row. -/
lemma run_sortEntry (nodeDistance : ℕ → ℕ → κ) (j : ℕ) (dv : ℕ → ℕ) (hfuel : nodes < fuel) :
    ∃ k, Loop.run (below nodes) (sortEntry nodes nodeDistance fuel j) fuel
      ⟨1, setRow nodes j id dv⟩ =
        some ⟨k, setRow nodes j (sortedRow nodeDistance j (nodes - 1)) dv⟩ := by
  let f : ℕ → Cursor := fun k => ⟨k + 1, setRow nodes j (sortedRow nodeDistance j k) dv⟩
  refine ⟨nodes - 1 + 1, Loop.run_eq_of_states (f := f) (n := nodes - 1) (fun k hk => ?_)
    (fun k hk => ?_) (below_of_le (by omega)) (by omega)⟩
  · exact below_of_lt (by omega)
  · obtain ⟨l', hrun⟩ := run_exchange nodeDistance j (sortedRow nodeDistance j k) dv
      (show k + 1 < nodes by omega) (show k + 1 < fuel by omega)
    simp only [f, sortEntry, hrun, Option.bind_eq_bind, Option.bind_some]
    rfl

lemma initRow_eq (nodeDistance : ℕ → ℕ → κ) (j : ℕ) (dv : ℕ → ℕ) (hfuel : nodes < fuel) :
    initRow nodes nodeDistance fuel ⟨j, dv⟩ =
      some ⟨j + 1, setRow nodes j (sortedRow nodeDistance j (nodes - 1)) dv⟩ := by
  obtain ⟨k, hrun⟩ := run_sortEntry nodeDistance j dv hfuel
  simp only [initRow, run_fillEntry j dv hfuel, hrun, Option.bind_eq_bind, Option.bind_some]

/-- The array when the rows below `j` are sorted. -/
def sortedRows (nodes : ℕ) (nodeDistance : ℕ → ℕ → κ) (dv : ℕ → ℕ) : ℕ → ℕ → ℕ
  | 0 => dv
  | j + 1 =>
    setRow nodes j (sortedRow nodeDistance j (nodes - 1)) (sortedRows nodes nodeDistance dv j)

/-- With enough passes for every loop, the function returns. -/
lemma initNumaDistanceVector_eq (nodeDistance : ℕ → ℕ → κ) (dv : ℕ → ℕ) (hfuel : nodes < fuel) :
    initNumaDistanceVector nodes nodeDistance fuel dv =
      some (sortedRows nodes nodeDistance dv nodes) := by
  let f : ℕ → Cursor := fun j => ⟨j, sortedRows nodes nodeDistance dv j⟩
  have hrun : Loop.run (below nodes) (initRow nodes nodeDistance fuel) fuel ⟨0, dv⟩ =
      some ⟨nodes, sortedRows nodes nodeDistance dv nodes⟩ :=
    Loop.run_eq_of_states (f := f) (fun j hj => below_of_lt hj)
      (fun j _ => initRow_eq nodeDistance j _ hfuel) (below_of_le (le_refl nodes)) hfuel
  simp only [initNumaDistanceVector, hrun, Option.bind_eq_bind, Option.bind_some]

/-- A row that has been sorted is not touched again. -/
lemma sortedRows_position (hj : j < l) (hk : k < nodes) :
    sortedRows nodes nodeDistance dv l (position nodes j k) =
      sortedRow nodeDistance j (nodes - 1) k := by
  induction l with
  | zero => exact absurd hj (Nat.not_lt_zero j)
  | succ l ih =>
    rw [sortedRows]
    by_cases hjl : l = j
    · rw [hjl, setRow_position hk]
    · rw [setRow_other hk hjl, ih (by omega)]

/-! ### The main result -/

/-- The order of a row: by the distance from node `j`, and equally distant nodes by number. -/
def Before (nodeDistance : ℕ → ℕ → κ) (j a b : ℕ) : Prop :=
  nodeDistance j a < nodeDistance j b ∨ nodeDistance j a = nodeDistance j b ∧ a < b

instance (nodeDistance : ℕ → ℕ → κ) (j : ℕ) : IsTrans ℕ (Before nodeDistance j) where
  trans a b c := by
    rintro (hab | ⟨hab, hlt⟩) (hbc | ⟨hbc, hlt'⟩)
    · exact Or.inl (hab.trans hbc)
    · exact Or.inl (hbc ▸ hab)
    · exact Or.inl (hab ▸ hbc)
    · exact Or.inr ⟨hab.trans hbc, hlt.trans hlt'⟩

/-- The nodes start in the order of their numbers, so one that does not move down past another is
behind it in a tie as well. -/
lemma decides_before (nodeDistance : ℕ → ℕ → κ) (j : ℕ) {a b : ℕ} (hab : a < b) :
    InsertionSort.Decides (Nearer nodeDistance j) (Before nodeDistance j) a b := by
  refine ⟨Or.inl, ?_⟩
  intro hnear
  rcases (not_lt.mp hnear).lt_or_eq with hlt | heq
  · exact Or.inl hlt
  · exact Or.inr ⟨heq, hab⟩

/-- A finished array: its rows are permutations of the nodes, in order. -/
structure Sorted (nodes : ℕ) (nodeDistance : ℕ → ℕ → κ) (dv : ℕ → ℕ) : Prop where
  perm {j : ℕ} : j < nodes →
    ((List.range nodes).map fun k => dv (position nodes j k)).Perm (List.range nodes)
  before {j k k' : ℕ} : j < nodes → k < k' → k' < nodes →
    Before nodeDistance j (dv (position nodes j k)) (dv (position nodes j k'))

/-- Whatever the number of nodes and their distances are, `init_numa_distance_vector` returns, its
accesses stay in the row they are made for, and every row is a permutation of the nodes, by
increasing distance from the node of the row, and then by number. -/
theorem initNumaDistanceVector_sorted (nodes : ℕ) (nodeDistance : ℕ → ℕ → κ) (dv : ℕ → ℕ) :
    ∃ dv', (∀ fuel > nodes, initNumaDistanceVector nodes nodeDistance fuel dv = some dv') ∧
      Sorted nodes nodeDistance dv' := by
  refine ⟨sortedRows nodes nodeDistance dv nodes,
    fun fuel hfuel => initNumaDistanceVector_eq nodeDistance dv hfuel, ?_, ?_⟩
  · intro j hj
    have hrow : ((List.range nodes).map fun k =>
        sortedRows nodes nodeDistance dv nodes (position nodes j k)) =
          (List.range nodes).map (sortedRow nodeDistance j (nodes - 1)) :=
      List.map_congr_left fun k hk => sortedRows_position hj (List.mem_range.mp hk)
    rw [hrow]
    exact InsertionSort.perm_sortUpTo _ nodes
  · intro j k k' hj hkk hk'
    rw [sortedRows_position hj (hkk.trans hk'), sortedRows_position hj hk']
    apply InsertionSort.sortUpTo_ordered
    · exact fun a b hab => decides_before nodeDistance j hab
    · exact hkk
    · exact Nat.le_sub_one_of_lt hk'

/-- The other nodes are nearer to node 0 the larger they are, and equally near to the others. -/
example : (initNumaDistanceVector 3
    (fun j k => if j = k then 10 else if j = 0 then 30 - k else 20) 4 fun _ => 7).map
      (fun dv => (List.range 10).map dv) = some [0, 2, 1, 1, 0, 2, 2, 0, 1, 7] := by decide

/-- The rows are those that `alloc_page_lock` searches the nodes by. -/
lemma numaDv_of_initNumaDistanceVector (T : Topology) {dv' : ℕ → ℕ} (hfuel : T.nodes < fuel)
    (h : initNumaDistanceVector T.nodes T.nodeDistance fuel dv = some dv') (hj : j < T.nodes) :
    ((List.range T.nodes).map fun k => dv' (position T.nodes j k)) = T.numaDv j := by
  rw [initNumaDistanceVector_eq _ _ hfuel] at h
  obtain rfl := Option.some.inj h
  rw [Topology.numaDv_eq]
  exact List.map_congr_left fun k hk => sortedRows_position hj (List.mem_range.mp hk)

end NumaDv

end FastMap
