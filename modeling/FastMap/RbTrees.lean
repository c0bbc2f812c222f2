import FastMap.Lib.Run
import FastMap.Lib.SearchTree
import FastMap.State

/-!
# The dirty tree

`mmap_buffer_rbtree.c`: the dirty pages of a file on one processor are a red-black tree ordered by
page index. The kernel's library recolours and rotates the tree at every insertion and deletion;
all that is known of it is that the in-order sequence of the nodes stays. The trees of the buffer
are finite maps (`KeyMap`), and this module is why.

`tagged_rb_greater_equal` looks for the first dirty page from an index on. Once it has turned left,
it does not come back to the node it turned at, which may be the page it looks for.
-/

namespace FastMap

/-- `lib/rbtree.c`. The mark of a node is what the library keeps in it. -/
structure RbLib (γ : Type*) where
  /-- The mark that `rb_link_node` gives a new node. -/
  mark : γ
  rbInsertColor : PageId → SearchTree γ PageId → SearchTree γ PageId
  rbErase : PageId → SearchTree γ PageId → SearchTree γ PageId
  inorder_rbInsertColor (p : PageId) (t : SearchTree γ PageId) :
    (rbInsertColor p t).inorder = t.inorder
  inorder_rbErase (p : PageId) (t : SearchTree γ PageId) : p ∈ t.inorder →
    (rbErase p t).inorder = t.inorder.erase p

/-- A tree, and `page->index` of every page. -/
structure DirtyTree (γ : Type*) where
  root : SearchTree γ PageId
  index : PageId → Pgoff

/-- The calls, and the assignment of an index by the rest of the driver. -/
inductive RbOp where
  | insert (p : PageId)
  | erase (k : Pgoff)
  | setIndex (p : PageId) (k : Pgoff)
  deriving DecidableEq, Repr

namespace DirtyTree

variable {γ : Type*}

/-! ### The calls -/

/-- `tagged_rb_search` -/
def taggedRbSearch (t : DirtyTree γ) (pgoff : Pgoff) : Option PageId :=
  t.root.search t.index pgoff

/-- `tagged_rb_insert`, with its return value. -/
def taggedRbInsert (L : RbLib γ) (t : DirtyTree γ) (data : PageId) : ℤ × DirtyTree γ :=
  match t.root.findLink t.index (t.index data) [] with
  | .error _ => (0, t)
  | .ok new => (1, { t with root := L.rbInsertColor data (t.root.linkNode L.mark data new) })

/-- `tagged_rb_erase`, with its return value. -/
def taggedRbErase (L : RbLib γ) (t : DirtyTree γ) (pgoff : Pgoff) : ℤ × DirtyTree γ :=
  match t.taggedRbSearch pgoff with
  | none => (0, t)
  | some data => (1, { t with root := L.rbErase data t.root })

def exec (L : RbLib γ) (t : DirtyTree γ) : RbOp → DirtyTree γ
  | .insert p => (t.taggedRbInsert L p).2
  | .erase k => (t.taggedRbErase L k).2
  | .setIndex p k => { t with index := Function.update t.index p k }

/-- The index of a page does not change while the page is in the tree. -/
def Admits (t : DirtyTree γ) : RbOp → Prop
  | .setIndex p _ => p ∉ t.root.inorder
  | _ => True

instance (t : DirtyTree γ) : (op : RbOp) → Decidable (t.Admits op)
  | .insert _ => inferInstanceAs (Decidable True)
  | .erase _ => inferInstanceAs (Decidable True)
  | .setIndex p _ => inferInstanceAs (Decidable (p ∉ t.root.inorder))

def Steps (L : RbLib γ) (t : DirtyTree γ) (op : RbOp) (t' : DirtyTree γ) : Prop :=
  t.Admits op ∧ t' = t.exec L op

end DirtyTree

/-! ### The map a tree stands for -/

/-- The pages by the index under which they were inserted, until they are erased. -/
structure IndexMap where
  map : KeyMap Pgoff PageId
  index : PageId → Pgoff

namespace IndexMap

def init (index : PageId → Pgoff) : IndexMap := ⟨.empty, index⟩

def exec (m : IndexMap) : RbOp → IndexMap
  | .insert p => { m with map := m.map.insertNew (m.index p) p }
  | .erase k => { m with map := m.map.erase k }
  | .setIndex p k => { m with index := Function.update m.index p k }

end IndexMap

namespace DirtyTree

variable {γ : Type*} {L : RbLib γ} {t t' : DirtyTree γ} {m : IndexMap} {p : PageId} {k : Pgoff}

/-- The tree is ordered and holds the entries of the map. -/
structure Represents (t : DirtyTree γ) (m : IndexMap) : Prop where
  sorted : t.root.Sorted t.index
  index_eq : m.index = t.index
  mem_iff (k : Pgoff) (p : PageId) :
    m.map.lookup k = some p ↔ p ∈ t.root.inorder ∧ t.index p = k

lemma Represents.search (h : t.Represents m) (k : Pgoff) :
    t.taggedRbSearch k = m.map.lookup k := by
  ext p
  rw [h.mem_iff]
  exact h.sorted.search_eq_some

/-- What `tagged_rb_insert` does: nothing if the index is taken, and otherwise the page enters the
sequence where its index belongs. -/
lemma taggedRbInsert_cases (L : RbLib γ) (h : t.root.Sorted t.index) (p : PageId) :
    (∃ q ∈ t.root.inorder, t.index q = t.index p ∧ t.taggedRbInsert L p = (0, t)) ∨
    ((∀ q ∈ t.root.inorder, t.index q ≠ t.index p) ∧ ∃ root xs ys,
      t.taggedRbInsert L p = (1, { t with root := root }) ∧
      SearchTree.Splits t.index (t.index p) t.root root p xs ys) := by
  rcases t.root.findLink_eq t.index (t.index p) [] with ⟨q, hq, he⟩ | ⟨hn, turns, hok, hs⟩
  · obtain ⟨hm, hi⟩ := h.search_eq_some.mp hq
    exact Or.inl ⟨q, hm, hi, by simp only [taggedRbInsert, he]⟩
  · obtain ⟨xs, ys, hx⟩ := hs L.mark p h
    rw [List.nil_append] at hok
    refine Or.inr ⟨h.search_eq_none.mp hn,
      L.rbInsertColor p (t.root.linkNode L.mark p turns), xs, ys,
      by simp only [taggedRbInsert, hok], ?_⟩
    exact ⟨hx.before, (L.inorder_rbInsertColor _ _).trans hx.after, hx.lt, hx.gt⟩

/-- What `tagged_rb_erase` does: the page with the index leaves the sequence. -/
lemma taggedRbErase_cases (L : RbLib γ) (h : t.root.Sorted t.index) (k : Pgoff) :
    ((∀ q ∈ t.root.inorder, t.index q ≠ k) ∧ t.taggedRbErase L k = (0, t)) ∨
    ∃ p ∈ t.root.inorder, t.index p = k ∧ ∃ root,
      t.taggedRbErase L k = (1, { t with root := root }) ∧ root.inorder = t.root.inorder.erase p := by
  cases hs : t.taggedRbSearch k with
  | none => exact Or.inl ⟨h.search_eq_none.mp hs, by simp only [taggedRbErase, hs]⟩
  | some p =>
    obtain ⟨hp, hk⟩ := h.search_eq_some.mp hs
    exact Or.inr ⟨p, hp, hk, _, by simp only [taggedRbErase, hs], L.inorder_rbErase p _ hp⟩

/-- The other pages are those with another index. -/
lemma erase_eq_filter (h : t.root.Sorted t.index) (hp : p ∈ t.root.inorder) :
    t.root.inorder.erase p = t.root.inorder.filter fun q => t.index q ≠ t.index p := by
  have hn : t.root.inorder.Nodup := h.imp fun hlt he => hlt.ne (congrArg t.index he)
  rw [hn.erase_eq_filter]
  apply List.filter_congr
  intro q hq
  rw [Bool.eq_iff_iff, bne_iff_ne, decide_eq_true_iff]
  exact not_congr ⟨fun he => congrArg t.index he, fun hk => h.eq_of_key hq hp hk⟩

lemma represents_init (index : PageId → Pgoff) :
    (⟨.nil, index⟩ : DirtyTree γ).Represents (.init index) := by
  refine ⟨.nil, rfl, ?_⟩
  intro k p
  simp [IndexMap.init]

/-! ### Every call -/

lemma Represents.insert (h : t.Represents m) (L : RbLib γ) (p : PageId) :
    (t.exec L (.insert p)).Represents (m.exec (.insert p)) := by
  rcases t.taggedRbInsert_cases L h.sorted p with ⟨q, hq, hi, he⟩ | ⟨hn, root, xs, ys, he, hs⟩
  · -- the key is taken in the map as well
    have hl : m.map.lookup (t.index p) = some q := (h.mem_iff _ _).mpr ⟨hq, hi⟩
    simp only [exec, he, IndexMap.exec]
    refine ⟨h.sorted, h.index_eq, fun k r => ?_⟩
    rw [h.index_eq, KeyMap.lookup_insertNew, hl, ← h.mem_iff]
    split_ifs with hk
    · rw [hk, hl, Option.getD_some]
    · rfl
  · have hl : m.map.lookup (t.index p) = none := by
      rw [← h.search]
      exact h.sorted.search_eq_none.mpr hn
    simp only [exec, he, IndexMap.exec]
    refine ⟨hs.sorted h.sorted, h.index_eq, fun k r => ?_⟩
    have hmem : r ∈ root.inorder ↔ r = p ∨ r ∈ t.root.inorder := by
      rw [hs.after, hs.before]
      simp only [List.mem_append, List.mem_cons]
      tauto
    rw [h.index_eq, KeyMap.lookup_insertNew, hl, hmem]
    split_ifs with hk
    · subst hk
      rw [Option.getD_none, Option.some.injEq]
      constructor
      · rintro rfl
        exact ⟨Or.inl rfl, rfl⟩
      · rintro ⟨rfl | hr, hi⟩
        · rfl
        · exact absurd hi (hn r hr)
    · rw [h.mem_iff]
      constructor
      · rintro ⟨hr, hi⟩
        exact ⟨Or.inr hr, hi⟩
      · rintro ⟨rfl | hr, hi⟩
        · exact absurd hi.symm hk
        · exact ⟨hr, hi⟩

lemma Represents.erase (h : t.Represents m) (L : RbLib γ) (k : Pgoff) :
    (t.exec L (.erase k)).Represents (m.exec (.erase k)) := by
  rcases t.taggedRbErase_cases L h.sorted k with ⟨hn, he⟩ | ⟨p, hp, rfl, root, he, hr⟩
  · simp only [exec, he, IndexMap.exec]
    refine ⟨h.sorted, h.index_eq, fun j q => ?_⟩
    rw [KeyMap.lookup_erase]
    split_ifs with hj
    · subst hj
      simp only [false_iff, not_and]
      exact hn q
    · exact h.mem_iff j q
  · simp only [exec, he, IndexMap.exec]
    refine ⟨?_, h.index_eq, fun j q => ?_⟩
    · change root.inorder.Pairwise _
      rw [hr]
      exact h.sorted.sublist List.erase_sublist
    · change _ ↔ q ∈ root.inorder ∧ _
      rw [hr, erase_eq_filter h.sorted hp, List.mem_filter, decide_eq_true_iff, KeyMap.lookup_erase]
      split_ifs with hj
      · subst hj
        simp only [false_iff, not_and]
        exact fun hq => hq.2
      · rw [h.mem_iff]
        constructor
        · rintro ⟨hq, rfl⟩
          exact ⟨⟨hq, hj⟩, rfl⟩
        · rintro ⟨⟨hq, -⟩, hi⟩
          exact ⟨hq, hi⟩

lemma Represents.setIndex (h : t.Represents m) (L : RbLib γ) (hp : p ∉ t.root.inorder) (k : Pgoff) :
    (t.exec L (.setIndex p k)).Represents (m.exec (.setIndex p k)) := by
  have hsame : ∀ q ∈ t.root.inorder, Function.update t.index p k q = t.index q := by
    intro q hq
    apply Function.update_of_ne
    rintro rfl
    exact hp hq
  refine ⟨?_, by simp only [exec, IndexMap.exec, h.index_eq], fun j q => ?_⟩
  · apply List.Pairwise.imp_of_mem _ h.sorted
    intro a b ha hb hlt
    change Function.update t.index p k a < Function.update t.index p k b
    rwa [hsame a ha, hsame b hb]
  · change m.map.lookup j = some q ↔ q ∈ t.root.inorder ∧ Function.update t.index p k q = j
    rw [h.mem_iff]
    constructor
    · rintro ⟨hq, rfl⟩
      exact ⟨hq, hsame q hq⟩
    · rintro ⟨hq, rfl⟩
      exact ⟨hq, (hsame q hq).symm⟩

lemma Represents.step (h : t.Represents m) {op : RbOp} (hs : Steps L t op t') :
    t'.Represents (m.exec op) := by
  obtain ⟨ha, rfl⟩ := hs
  cases op with
  | insert p => exact h.insert L p
  | erase k => exact h.erase L k
  | setIndex p k => exact h.setIndex L ha k

/-- A tree that has been built from the empty one stands for the map that the same calls build. -/
lemma represents_run {index : PageId → Pgoff} {ops : List RbOp}
    (hr : Run (Steps L) ⟨.nil, index⟩ ops t) :
    t.Represents (ops.foldl IndexMap.exec (.init index)) := by
  induction hr with
  | nil => exact represents_init index
  | snoc _ hs ih =>
    rw [List.foldl_append]
    exact ih.step hs

/-! ### The main result -/

/-- After every sequence of calls the tree is a map ordered by page index: in order, the indices
increase; a search finds the page that was inserted under the index and not erased since; an
insertion fails if and only if the index is taken, and leaves the tree as it is then; an erasure
takes out the page with the index, and no other one. -/
theorem dirtyTree_is_ordered_map (L : RbLib γ) (index : PageId → Pgoff) (ops : List RbOp)
    (t : DirtyTree γ) (hr : Run (Steps L) ⟨.nil, index⟩ ops t) :
    (t.root.inorder.map t.index).Pairwise (· < ·) ∧
    (∀ k, t.taggedRbSearch k = (ops.foldl IndexMap.exec (.init index)).map.lookup k) ∧
    (∀ k p, t.taggedRbSearch k = some p ↔ p ∈ t.root.inorder ∧ t.index p = k) ∧
    (∀ p, t.taggedRbInsert L p = (0, t) ↔ ∃ q ∈ t.root.inorder, t.index q = t.index p) ∧
    (∀ p, (∀ q ∈ t.root.inorder, t.index q ≠ t.index p) →
      (t.taggedRbInsert L p).1 = 1 ∧
        ∃ xs ys, t.root.inorder = xs ++ ys ∧
          (t.taggedRbInsert L p).2.root.inorder = xs ++ p :: ys) ∧
    ∀ k, ((t.taggedRbErase L k).1 = 1 ↔ ∃ p ∈ t.root.inorder, t.index p = k) ∧
      (t.taggedRbErase L k).2.root.inorder = t.root.inorder.filter fun p => t.index p ≠ k := by
  have h := represents_run hr
  refine ⟨List.pairwise_map.mpr h.sorted, h.search, fun k p => h.sorted.search_eq_some, ?_, ?_, ?_⟩
  · intro p
    rcases t.taggedRbInsert_cases L h.sorted p with ⟨q, hq, hi, he⟩ | ⟨hn, root, xs, ys, he, -⟩
    · exact ⟨fun _ => ⟨q, hq, hi⟩, fun _ => he⟩
    · rw [he]
      constructor
      · intro h01
        simp at h01
      · rintro ⟨q, hq, hi⟩
        exact absurd hi (hn q hq)
  · intro p hn
    rcases t.taggedRbInsert_cases L h.sorted p with ⟨q, hq, hi, -⟩ | ⟨-, root, xs, ys, he, hs⟩
    · exact absurd hi (hn q hq)
    · rw [he]
      exact ⟨rfl, xs, ys, hs.before, hs.after⟩
  · intro k
    rcases t.taggedRbErase_cases L h.sorted k with ⟨hn, he⟩ | ⟨p, hp, rfl, root, he, hroot⟩
    · rw [he]
      constructor
      · constructor
        · intro h01
          simp at h01
        · rintro ⟨p, hp, hk⟩
          exact absurd hk (hn p hp)
      · symm
        apply List.filter_eq_self.mpr
        intro p hp
        simpa using hn p hp
    · rw [he]
      exact ⟨⟨fun _ => ⟨p, hp, rfl⟩, fun _ => rfl⟩, hroot.trans (erase_eq_filter h.sorted hp)⟩

/-! ### A library that keeps the pages on a chain -/

def chain : List PageId → SearchTree Unit PageId
  | [] => .nil
  | p :: l => .node () .nil p (chain l)

lemma inorder_chain (l : List PageId) : (chain l).inorder = l := by
  induction l with
  | nil => rfl
  | cons p l ih => simp [chain, ih]

def chainLib : RbLib Unit where
  mark := ()
  rbInsertColor _ t := t
  rbErase p t := chain (t.inorder.erase p)
  inorder_rbInsertColor _ _ := rfl
  inorder_rbErase _ _ _ := inorder_chain _

/-- Two pages go in, a third one finds its index taken, and the first one comes out again. -/
def chainCalls : List RbOp := [.insert 7, .insert 3, .setIndex 5 3, .insert 5, .erase 7]

/-- The tree after a sequence of calls, if all of them are admitted. -/
def execAll (L : RbLib γ) (t : DirtyTree γ) (ops : List RbOp) : Option (DirtyTree γ) :=
  ops.foldlM (fun t op => if t.Admits op then some (t.exec L op) else none) t

lemma run_execAll {ops : List RbOp} (h : execAll L t ops = some t') : Run (Steps L) t ops t' := by
  refine Run.of_foldlM (fun t op t' hs => ?_) h
  split_ifs at hs with ha
  exact ⟨ha, (Option.some.inj hs).symm⟩

theorem dirtyTree_is_ordered_map_chain :
    ∃ t, Run (Steps chainLib) ⟨.nil, id⟩ chainCalls t ∧ t.taggedRbSearch 3 = some 3 ∧
      t.taggedRbSearch 7 = none := by
  have h : (execAll chainLib ⟨.nil, id⟩ chainCalls).isSome = true := by decide
  obtain ⟨t, ht⟩ := Option.isSome_iff_exists.mp h
  have hr := run_execAll ht
  have hsearch := (dirtyTree_is_ordered_map _ _ _ _ hr).2.1
  refine ⟨t, hr, ?_, ?_⟩
  · rw [hsearch]
    decide
  · rw [hsearch]
    decide

/-! ### The first page from an index on -/

/-- `tagged_rb_greater_equal` at a node. -/
def greaterEqualAt (index : PageId → Pgoff) (pgoff : Pgoff) : SearchTree γ PageId → Option PageId
  | .nil => none
  | .node _ left data right =>
    if index data = pgoff then some data
    else if left.isNil ∧ right.isNil then if pgoff < index data then some data else none
    else if left.isNil ∧ pgoff < index data then some data
    else if left.isNil ∧ index data < pgoff then greaterEqualAt index pgoff right
    else if right.isNil ∧ pgoff < index data then greaterEqualAt index pgoff left
    else if right.isNil ∧ index data < pgoff then none
    -- here the node has 2 children
    else if pgoff < index data then greaterEqualAt index pgoff left
    else if index data < pgoff then greaterEqualAt index pgoff right
    else none

/-- `tagged_rb_greater_equal` at the root. -/
def taggedRbGreaterEqual (t : DirtyTree γ) (pgoff : Pgoff) : Option PageId :=
  greaterEqualAt t.index pgoff t.root

section greaterEqual

variable {index : PageId → Pgoff} {pgoff : Pgoff} {n l r : SearchTree γ PageId} {c : γ}

/-- The turns, without the cases that come to the same. -/
lemma greaterEqualAt_node (index : PageId → Pgoff) (pgoff : Pgoff) (c : γ)
    (l : SearchTree γ PageId) (p : PageId) (r : SearchTree γ PageId) :
    greaterEqualAt index pgoff (.node c l p r) =
      if index p = pgoff then some p
      else if pgoff < index p then if l.isNil then some p else greaterEqualAt index pgoff l
      else greaterEqualAt index pgoff r := by
  have hnil : ∀ u : SearchTree γ PageId, u.isNil = true → greaterEqualAt index pgoff u = none := by
    intro u hu
    cases u with
    | nil => rfl
    | node c l p r => simp [SearchTree.isNil] at hu
  rw [greaterEqualAt]
  rcases lt_trichotomy (index p) pgoff with hlt | heq | hgt
  · have hr := hnil r
    cases hl : l.isNil <;> cases hr' : r.isNil <;>
      simp [hlt, hlt.ne, hlt.not_gt, hr, hr']
  · simp only [heq, if_true]
  · cases l.isNil <;> cases r.isNil <;> simp [hgt, hgt.ne', hgt.not_gt]

lemma mem_of_greaterEqualAt (h : greaterEqualAt index pgoff n = some p) : p ∈ n.inorder := by
  induction n with
  | nil => simp [greaterEqualAt] at h
  | node c l q r ihl ihr =>
    rw [greaterEqualAt_node] at h
    simp only [SearchTree.inorder_node, List.mem_append, List.mem_cons]
    split_ifs at h
    · exact Or.inr (Or.inl (Option.some.inj h).symm)
    · exact Or.inr (Or.inl (Option.some.inj h).symm)
    · exact Or.inl (ihl h)
    · exact Or.inr (Or.inr (ihr h))

/-- A search that does not come back from a left subtree is right, if and only if there is no page
to come back to. -/
lemma leastFrom_greaterEqualAt_iff (h : n.Ordered index) :
    n.LeastFrom index pgoff (greaterEqualAt index pgoff n) ↔ ¬ n.LeftGap index pgoff := by
  induction n with
  | nil => simp [greaterEqualAt, SearchTree.LeastFrom, SearchTree.LeftGap]
  | node c l p r ihl ihr =>
    rw [greaterEqualAt_node]
    split_ifs with heq hgt hnil
    · -- the root has the index itself
      exact iff_of_true (h.leastFrom_root heq.ge fun q _ hq => heq.le.trans hq)
        (h.not_leftGap_root heq.ge (Or.inl heq))
    · -- the first page from the index on is the root, which has no left subtree
      cases l with
      | node => simp [SearchTree.isNil] at hnil
      | nil =>
        exact iff_of_true (h.leastFrom_root hgt.le fun q hq => absurd hq List.not_mem_nil)
          (h.not_leftGap_root hgt.le (Or.inr rfl))
    · -- a null from the left subtree is wrong, since there is the root
      have hnull : ¬ (SearchTree.node c l p r).LeastFrom index pgoff none :=
        fun hleast => absurd (hleast p (by simp)) hgt.not_gt
      by_cases hall : ∀ q ∈ l.inorder, index q < pgoff
      · have hne : l ≠ .nil := by
          rintro rfl
          exact hnil rfl
        refine iff_of_false ?_ (not_not.mpr (Or.inl ⟨hne, hall, hgt⟩))
        cases hg : greaterEqualAt index pgoff l with
        | none => exact hnull
        | some q =>
          intro hleast
          exact absurd (hall q (mem_of_greaterEqualAt hg)) hleast.2.1.not_gt
      · rw [h.leftGap_of_gt hgt hall, ← ihl h.left]
        cases hg : greaterEqualAt index pgoff l with
        | none => exact iff_of_false hnull hall
        | some q => exact h.leastFrom_left (mem_of_greaterEqualAt hg)
    · have hlt : index p < pgoff := lt_of_le_of_ne (not_lt.mp hgt) heq
      rw [h.leftGap_of_lt hlt, ← ihr h.right]
      exact h.leastFrom_right hlt

end greaterEqual

/-- After every sequence of calls the search is right, if and only if the index does not lie between
a page and its left subtree. -/
lemma leastFrom_run_iff {index : PageId → Pgoff} {ops : List RbOp}
    (hr : Run (Steps L) ⟨.nil, index⟩ ops t) (pgoff : Pgoff) :
    t.root.LeastFrom t.index pgoff (t.taggedRbGreaterEqual pgoff) ↔
      ¬ t.root.LeftGap t.index pgoff :=
  leastFrom_greaterEqualAt_iff (represents_run hr).sorted.ordered

/-- In a tree that is ordered by page index, `tagged_rb_greater_equal` returns a page with the least
index from `pgoff` on, and null only if all indices are smaller, if and only if `pgoff` does not lie
between a page and its left subtree. -/
theorem taggedRbGreaterEqual_least_iff (t : DirtyTree γ) (h : t.root.Ordered t.index)
    (pgoff : Pgoff) :
    t.root.LeastFrom t.index pgoff (t.taggedRbGreaterEqual pgoff) ↔
      ¬ t.root.LeftGap t.index pgoff :=
  leastFrom_greaterEqualAt_iff h

/-- A page with two children. -/
def threePages : DirtyTree Unit :=
  ⟨.node () (.node () .nil 3 .nil) 10 (.node () .nil 12 .nil), id⟩

/-- From the index of the left child on, the search finds that child. -/
theorem taggedRbGreaterEqual_least_threePages :
    threePages.root.Ordered threePages.index ∧
      threePages.root.LeastFrom threePages.index 3 (threePages.taggedRbGreaterEqual 3) := by
  have hord : threePages.root.Ordered threePages.index := by
    unfold SearchTree.Ordered
    decide
  refine ⟨hord, (taggedRbGreaterEqual_least_iff threePages hord 3).mpr ?_⟩
  simp [threePages, SearchTree.LeftGap]

/-- From an index behind the left child on, it should find the page itself, and finds nothing. -/
theorem taggedRbGreaterEqual_misses_root :
    ¬ ∀ (t : DirtyTree Unit) (pgoff : Pgoff), t.root.Sorted t.index →
      t.root.LeastFrom t.index pgoff (t.taggedRbGreaterEqual pgoff) := by
  intro hall
  have hsorted : threePages.root.Sorted threePages.index := by
    unfold SearchTree.Sorted
    decide
  have hnull : threePages.taggedRbGreaterEqual 5 = none := by decide
  have hleast := hall threePages 5 hsorted
  rw [hnull] at hleast
  exact absurd (hleast 10 (by decide)) (by decide)

end DirtyTree

end FastMap
