import FastMap.Lib.Run
import FastMap.WriteBack

/-!
# The heap in its array

The heap of `write_dirty_pages.c` lies in an array of `MAX_CPUS` elements. Here every access to the
array is checked, and a loop or a recursion that does not come to an end is an outcome of its own.
On heaps with room the checked functions agree with the heap operations of the library.
-/

namespace FastMap

open BinHeap (lchild rchild parent)

namespace MinHeap

/-! ### The functions with checked accesses -/

/-- `heap_array[i]`; the array ends at `MAX_CPUS`. -/
def readAt (h : MinHeap) (i : ℕ) : Except Halt HeapNode :=
  if i < maxCpus then .ok (h.arr i) else .error .heapOverflow

/-- Assignment to `heap_array[i]`. -/
def writeAt (h : MinHeap) (i : ℕ) (n : HeapNode) : Except Halt MinHeap :=
  if i < maxCpus then .ok { h with arr := Function.update h.arr i n } else .error .heapOverflow

/-- The loop of `min_heap_insert` and the assignments after it. The parent is read only when `i` is
not zero. -/
def insertLoop (n : HeapNode) : ℕ → ℕ → MinHeap → Except Halt MinHeap
  | fuel, i, h =>
    if i = 0 then h.writeAt i n
    else
      match h.readAt (parent i) with
      | .error x => .error x
      | .ok q =>
        if n.offset < q.offset then
          match fuel, h.writeAt i q with
          | _, .error x => .error x
          | 0, .ok _ => .error .spin
          | fuel + 1, .ok h => insertLoop n fuel (parent i) h
        else h.writeAt i n

/-- `min_heap_insert` -/
def insertChecked (h : MinHeap) (n : HeapNode) : Except Halt MinHeap :=
  insertLoop n h.size h.size { h with size := h.size + 1 }

/-- The conditional expression on one child: the child if it is in the heap and smaller. -/
def smaller (h : MinHeap) (child m : ℕ) : Except Halt ℕ :=
  if child < h.size then
    match h.readAt child, h.readAt m with
    | .ok c, .ok x => .ok (if c.offset < x.offset then child else m)
    | .error x, _ => .error x
    | _, .error x => .error x
  else .ok m

/-- `smallest` of `min_heap_heapify` -/
def smallestChecked (h : MinHeap) (i : ℕ) : Except Halt ℕ :=
  match h.smaller (lchild i) i with
  | .ok m => h.smaller (rchild i) m
  | .error x => .error x

/-- `swap(heap_array[i], heap_array[m])` -/
def swapAt (h : MinHeap) (i m : ℕ) : Except Halt MinHeap :=
  match h.readAt i, h.readAt m with
  | .ok x, .ok y =>
    match h.writeAt i y with
    | .ok h => h.writeAt m x
    | .error x => .error x
  | .error x, _ => .error x
  | _, .error x => .error x

/-- `min_heap_heapify` -/
def heapifyChecked : ℕ → ℕ → MinHeap → Except Halt MinHeap
  | fuel, i, h =>
    match h.smallestChecked i with
    | .error x => .error x
    | .ok m =>
      if m = i then .ok h
      else
        match fuel, h.swapAt i m with
        | _, .error x => .error x
        | 0, .ok _ => .error .spin
        | fuel + 1, .ok h => heapifyChecked fuel m h

/-- `min_heap_delete_min` of a heap that is not empty. -/
def deleteMinChecked (h : MinHeap) : Except Halt (HeapNode × MinHeap) :=
  if h.size = 0 then .error .notIssued
  else
    match h.readAt 0, h.readAt (h.size - 1) with
    | .ok r, .ok last =>
      match writeAt { h with size := h.size - 1 } 0 last with
      | .ok h => (heapifyChecked h.size 0 h).map fun h => (r, h)
      | .error x => .error x
    | .error x, _ => .error x
    | _, .error x => .error x

/-! ### Agreement with the library -/

variable {h h' : MinHeap} {n : HeapNode} {i m : ℕ}

lemma readAt_eq (hi : i < maxCpus) : h.readAt i = .ok (h.arr i) := if_pos hi

lemma writeAt_eq (hi : i < maxCpus) :
    h.writeAt i n = .ok { h with arr := Function.update h.arr i n } := if_pos hi

/-- The loop moves towards the root, so its first position bounds all accesses and its number of
iterations. -/
lemma insertLoop_eq {fuel : ℕ} (hi : i < maxCpus) (hf : i ≤ fuel) :
    insertLoop n fuel i h =
      .ok { h with arr := BinHeap.siftUp HeapNode.offset n fuel i h.arr } := by
  induction fuel generalizing i h with
  | zero =>
    obtain rfl : i = 0 := Nat.le_zero.mp hf
    rw [insertLoop, if_pos rfl, writeAt_eq hi]
    rfl
  | succ fuel ih =>
    rw [insertLoop]
    by_cases h0 : i = 0
    · rw [if_pos h0, writeAt_eq hi, BinHeap.siftUp, if_neg fun hc => hc.1 h0]
    · have hp := BinHeap.parent_lt h0
      rw [if_neg h0, readAt_eq (hp.trans hi), BinHeap.siftUp]
      by_cases hlt : n.offset < (h.arr (parent i)).offset
      · simp only [if_pos hlt, writeAt_eq hi]
        rw [if_pos ⟨h0, hlt⟩, ih (hp.trans hi) (by omega)]
      · simp only [if_neg hlt, writeAt_eq hi]
        rw [if_neg fun hc => hlt hc.2]

/-- With room for one more element the checked insertion is the one of the library. -/
lemma insertChecked_eq (hs : h.size < maxCpus) :
    h.insertChecked n = .ok (h.insert HeapNode.offset n) :=
  insertLoop_eq hs (le_refl _)

lemma smaller_eq {child : ℕ} (hs : h.size ≤ maxCpus) (hm : child < h.size → m < maxCpus) :
    h.smaller child m =
      .ok (if child < h.size ∧ (h.arr child).offset < (h.arr m).offset then child else m) := by
  rw [smaller]
  by_cases hc : child < h.size
  · rw [if_pos hc, readAt_eq (hc.trans_le hs), readAt_eq (hm hc)]
    simp only [hc, true_and]
  · rw [if_neg hc, if_neg fun h => hc h.1]

/-- A child is read only when it is in the heap, and then so is its parent. -/
lemma smallestChecked_eq (hs : h.size ≤ maxCpus) :
    h.smallestChecked i = .ok (BinHeap.smallest HeapNode.offset h.size i h.arr) := by
  have hl : lchild i < h.size → i < maxCpus := by
    intro hc
    unfold lchild at hc
    omega
  have hr : rchild i < h.size → i < maxCpus := by
    intro hc
    unfold rchild at hc
    omega
  simp only [smallestChecked, smaller_eq hs hl]
  apply smaller_eq hs
  intro hc
  split_ifs with hlt
  · exact hlt.1.trans_le hs
  · exact hr hc

lemma swapAt_eq (hi : i < maxCpus) (hm : m < maxCpus) :
    h.swapAt i m = .ok { h with arr := BinHeap.swap h.arr i m } := by
  simp only [swapAt, readAt_eq hi, readAt_eq hm, writeAt_eq hi, writeAt_eq hm]
  rfl

/-- The recursion moves away from the root, and ends before it leaves the heap. -/
lemma heapifyChecked_eq {fuel : ℕ} (hs : h.size ≤ maxCpus) (hf : h.size ≤ i + fuel) :
    heapifyChecked fuel i h =
      .ok { h with arr := BinHeap.heapify HeapNode.offset h.size fuel i h.arr } := by
  induction fuel generalizing i h with
  | zero =>
    have hm : BinHeap.smallest HeapNode.offset h.size i h.arr = i := by
      by_contra hne
      -- a smaller child would be in the heap, and past its end
      obtain ⟨hm0, hmn, hpm⟩ := BinHeap.smallest_cases h.arr hne
      have hlt := BinHeap.parent_lt hm0
      omega
    rw [heapifyChecked, smallestChecked_eq hs]
    simp only [if_pos hm]
    rfl
  | succ fuel ih =>
    rw [heapifyChecked, smallestChecked_eq hs, BinHeap.heapify]
    by_cases hm : BinHeap.smallest HeapNode.offset h.size i h.arr = i
    · simp only [if_pos hm]
      rw [if_neg (not_not.mpr hm)]
    · obtain ⟨hm0, hmn, hpm⟩ := BinHeap.smallest_cases h.arr hm
      have hlt := BinHeap.parent_lt hm0
      rw [hpm] at hlt
      simp only [if_neg hm, swapAt_eq (h := h) ((hlt.trans hmn).trans_le hs) (hmn.trans_le hs)]
      rw [if_pos hm]
      have hfuel : h.size ≤ BinHeap.smallest HeapNode.offset h.size i h.arr + fuel := by omega
      exact ih (h := ⟨BinHeap.swap h.arr i _, h.size⟩) hs hfuel

/-- On a heap that is not empty the checked deletion is the one of the library. -/
lemma deleteMinChecked_eq (hs : h.size ≤ maxCpus) (h0 : h.size ≠ 0) :
    h.deleteMinChecked = .ok (h.deleteMin HeapNode.offset) := by
  have hpos : 0 < maxCpus := by decide
  rw [deleteMinChecked, if_neg h0, readAt_eq hpos, readAt_eq (by omega)]
  simp only
  rw [writeAt_eq hpos]
  simp only
  rw [heapifyChecked_eq (by change h.size - 1 ≤ _; omega) (by change h.size - 1 ≤ _; omega)]
  rfl

/-- Beyond its room an insertion writes past the end of the array, as `minHeapInsert` says. -/
lemma insertChecked_eq_minHeapInsert (hs : h.size ≤ maxCpus) :
    h.insertChecked n = minHeapInsert h n := by
  rcases hs.lt_or_eq with hlt | heq
  · rw [insertChecked_eq hlt, minHeapInsert, if_neg (not_le.mpr hlt)]
  · have hend : ¬ h.size < maxCpus := heq.ge.not_gt
    have hp : parent h.size < maxCpus := by
      rw [heq]
      decide
    have h0 : h.size ≠ 0 := by
      rw [heq]
      decide
    have hw : ∀ q : HeapNode, writeAt { h with size := h.size + 1 } h.size q =
        .error .heapOverflow := fun q => if_neg hend
    rw [minHeapInsert, if_pos heq.ge, insertChecked, insertLoop, if_neg h0, readAt_eq hp]
    simp only [hw]
    split_ifs <;> rfl

/-! ### Runs -/

/-- The calls; a deletion is recorded with the element it returned. -/
inductive Call where
  | insert (n : HeapNode)
  | deleteMin (r : HeapNode)
  deriving DecidableEq, Repr

/-- A call on a heap with room for the new element, or with an element to delete. -/
def Step (h : MinHeap) : Call → MinHeap → Prop
  | .insert n, h' => h.size < maxCpus ∧ h.insertChecked n = .ok h'
  | .deleteMin r, h' => h.size ≠ 0 ∧ h.deleteMinChecked = .ok (r, h')

def Call.inserted? : Call → Option HeapNode
  | .insert n => some n
  | .deleteMin _ => none

def Call.deleted? : Call → Option HeapNode
  | .insert _ => none
  | .deleteMin r => some r

/-- The heap after some calls: ordered, inside its array, and holding what was inserted and not
deleted. -/
structure Valid (calls : List Call) (h : MinHeap) : Prop where
  ordered : h.Ordered HeapNode.offset
  size_le : h.size ≤ maxCpus
  elems_eq : h.elems + Multiset.ofList (calls.filterMap Call.deleted?) =
    Multiset.ofList (calls.filterMap Call.inserted?)

lemma valid_create : Valid [] minHeapCreate := by
  refine ⟨?_, Nat.zero_le _, rfl⟩
  intro i _ hi
  exact absurd hi (Nat.not_lt_zero i)

lemma Valid.insert {calls : List Call} (hv : Valid calls h) (hs : h.size < maxCpus)
    (he : h.insertChecked n = .ok h') : Valid (calls ++ [.insert n]) h' := by
  rw [insertChecked_eq hs] at he
  obtain rfl : h.insert HeapNode.offset n = h' := by simpa using he
  refine ⟨hv.ordered.insert n, hs, ?_⟩
  have hdel : [Call.insert n].filterMap Call.deleted? = [] := rfl
  have hins : [Call.insert n].filterMap Call.inserted? = [n] := rfl
  rw [BinHeap.elems_insert, List.filterMap_append, List.filterMap_append, hdel, hins,
    List.append_nil, ← Multiset.coe_add, ← hv.elems_eq, Multiset.coe_singleton,
    ← Multiset.singleton_add]
  abel

lemma Valid.deleteMin {calls : List Call} {r : HeapNode} (hv : Valid calls h) (h0 : h.size ≠ 0)
    (he : h.deleteMinChecked = .ok (r, h')) : Valid (calls ++ [.deleteMin r]) h' := by
  rw [deleteMinChecked_eq hv.size_le h0] at he
  have hd : h.deleteMin HeapNode.offset = (r, h') := by simpa using he
  have helems := h.elems_deleteMin HeapNode.offset h0
  have hord := hv.ordered.deleteMin
  have hsize := h.size_deleteMin HeapNode.offset
  rw [hd] at helems hord hsize
  refine ⟨hord, ?_, ?_⟩
  · have := hv.size_le
    change h'.size = _ at hsize
    omega
  · have hdel : [Call.deleteMin r].filterMap Call.deleted? = [r] := rfl
    have hins : [Call.deleteMin r].filterMap Call.inserted? = [] := rfl
    rw [List.filterMap_append, List.filterMap_append, hdel, hins, List.append_nil, ← hv.elems_eq,
      ← helems, ← Multiset.coe_add, Multiset.coe_singleton, ← Multiset.singleton_add]
    abel

lemma valid_run {calls : List Call} (hr : Run Step minHeapCreate calls h) : Valid calls h := by
  induction hr with
  | nil => exact valid_create
  | @snoc calls c _ _ _ hs ih =>
    cases c with
    | insert n => exact ih.insert hs.1 hs.2
    | deleteMin r => exact ih.deleteMin hs.1 hs.2

/-- After every sequence of insertions, at most `MAX_CPUS` of them outstanding, and deletions from
a heap that is not empty: no element has a smaller offset than its parent, the elements are those
that were inserted and not deleted, and the next insertion or deletion comes to its end without
leaving the array, a deletion with an element of least offset. -/
theorem heap_holds_pending (calls : List Call) (h : MinHeap)
    (hr : Run Step minHeapCreate calls h) :
    (∀ i, i ≠ 0 → i < h.size → (h.arr (parent i)).offset ≤ (h.arr i).offset) ∧
    h.elems + Multiset.ofList (calls.filterMap Call.deleted?) =
      Multiset.ofList (calls.filterMap Call.inserted?) ∧
    h.size ≤ maxCpus ∧
    (∀ n, h.size < maxCpus → ∃ h', h.insertChecked n = .ok h') ∧
    (h.size ≠ 0 → ∃ r h', h.deleteMinChecked = .ok (r, h') ∧ r ∈ h.elems ∧
      ∀ n ∈ h.elems, r.offset ≤ n.offset) ∧
    ∀ i, ∃ h', heapifyChecked h.size i h = .ok h' := by
  have hv := valid_run hr
  refine ⟨hv.ordered, hv.elems_eq, hv.size_le, fun n hs => ⟨_, insertChecked_eq hs⟩, ?_, ?_⟩
  · intro h0
    refine ⟨_, _, deleteMinChecked_eq hv.size_le h0, ?_, fun n hn => hv.ordered.deleteMin_le hn⟩
    rw [← h.elems_deleteMin HeapNode.offset h0]
    exact Multiset.mem_cons_self _ _
  · intro i
    exact ⟨_, heapifyChecked_eq hv.size_le (Nat.le_add_left _ _)⟩

/-- The heap after a call, if the call can be made and returns what it is recorded with. -/
def exec (h : MinHeap) : Call → Option MinHeap
  | .insert n => if h.size < maxCpus then (h.insertChecked n).toOption else none
  | .deleteMin r =>
    match h.deleteMinChecked with
    | .ok (q, h') => if h.size ≠ 0 ∧ q = r then some h' else none
    | .error _ => none

lemma step_exec {c : Call} (he : h.exec c = some h') : h.Step c h' := by
  cases c with
  | insert n =>
    simp only [exec] at he
    split_ifs at he with hs
    exact ⟨hs, Except.toOption_eq_some.mp he⟩
  | deleteMin r =>
    simp only [exec] at he
    cases hd : h.deleteMinChecked with
    | error x => simp [hd] at he
    | ok q =>
      simp only [hd] at he
      split_ifs at he with hq
      obtain rfl : q.2 = h' := by simpa using he
      exact ⟨hq.1, by rw [hd, ← hq.2]⟩

/-- Three pages, two of them with the same offset, and one deletion. -/
def fewCalls : List Call :=
  [.insert ⟨0, 5, 1⟩, .insert ⟨1, 3, 2⟩, .insert ⟨2, 3, 3⟩, .deleteMin ⟨1, 3, 2⟩]

theorem heap_holds_pending_few :
    ∃ h, Run Step minHeapCreate fewCalls h ∧ h.size = 2 ∧
      ∃ r h', h.deleteMinChecked = .ok (r, h') ∧ r ∈ h.elems := by
  have hsome : (fewCalls.foldlM exec minHeapCreate).map BinHeap.size = some 2 := by decide
  obtain ⟨h, hh, hs⟩ := Option.map_eq_some_iff.mp hsome
  have hr : Run Step minHeapCreate fewCalls h := Run.of_foldlM (fun _ _ _ => step_exec) hh
  obtain ⟨r, h', hd, hm, -⟩ := (heap_holds_pending _ _ hr).2.2.2.2.1 (by rw [hs]; decide)
  exact ⟨h, hr, hs, r, h', hd, hm⟩

end MinHeap

end FastMap
