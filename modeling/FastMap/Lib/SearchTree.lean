import Mathlib

/-!
# Binary search trees up to rebalancing

A tree is known by its in-order sequence: a search in a tree whose sequence is increasing finds
what the sequence holds, whatever the shape of the tree is. An insertion walks down to an empty
link and hangs a leaf there; the link is given by the turns that lead to it. A library that
rebalances the tree between the operations may use a mark of type `γ` at every node.

The least key from a bound on is at the root of a tree whose left subtree lies below the bound, and
otherwise further down. So a search for it that never comes back from a left subtree misses it if
the bound lies between a node and its left subtree.
-/

/-- A turn on the way down. -/
inductive Side where
  | left
  | right
  deriving DecidableEq, Repr

/-- A binary tree of values, with a mark at every node. -/
inductive SearchTree (γ α : Type*) where
  | nil
  | node (c : γ) (l : SearchTree γ α) (a : α) (r : SearchTree γ α)
  deriving DecidableEq, Repr

namespace SearchTree

variable {γ α κ : Type*} [LinearOrder κ]

def inorder : SearchTree γ α → List α
  | nil => []
  | node _ l a r => l.inorder ++ a :: r.inorder

/-- The loop of a search. -/
def search (key : α → κ) (k : κ) : SearchTree γ α → Option α
  | nil => none
  | node _ l a r =>
    if k < key a then l.search key k
    else if key a < k then r.search key k
    else some a

/-- The loop that looks for the link of a new key: the turns taken so far and the ones still to be
taken lead to an empty link, or the key is found. -/
def findLink (key : α → κ) (k : κ) : SearchTree γ α → List Side → Except α (List Side)
  | nil, path => .ok path
  | node _ l a r, path =>
    if k < key a then l.findLink key k (path ++ [.left])
    else if key a < k then r.findLink key k (path ++ [.right])
    else .error a

/-- Hang a leaf into the link that a list of turns leads to. A link that is taken, or that does not
exist, is left alone. -/
def linkNode (c : γ) (a : α) : SearchTree γ α → List Side → SearchTree γ α
  | nil, [] => node c nil a nil
  | node c' l b r, .left :: path => node c' (l.linkNode c a path) b r
  | node c' l b r, .right :: path => node c' l b (r.linkNode c a path)
  | t, _ => t

@[simp] lemma inorder_nil : (nil : SearchTree γ α).inorder = [] := rfl

@[simp] lemma inorder_node (c : γ) (l : SearchTree γ α) (a : α) (r : SearchTree γ α) :
    (node c l a r).inorder = l.inorder ++ a :: r.inorder := rfl

/-- The keys increase along the in-order sequence. -/
def Sorted (key : α → κ) (t : SearchTree γ α) : Prop :=
  t.inorder.Pairwise fun a b => key a < key b

variable {key : α → κ} {k : κ} {t l r : SearchTree γ α} {c : γ} {a b : α} {path : List Side}

/-! ### The order at a node -/

/-- What a relation along the in-order sequence says at a node. -/
lemma pairwise_node {R : α → α → Prop} (h : (node c l a r).inorder.Pairwise R) :
    l.inorder.Pairwise R ∧ r.inorder.Pairwise R ∧
      (∀ b ∈ l.inorder, R b a) ∧ ∀ b ∈ r.inorder, R a b := by
  obtain ⟨hl, har, hacross⟩ := List.pairwise_append.mp h
  obtain ⟨ha, hr⟩ := List.pairwise_cons.mp har
  exact ⟨hl, hr, fun b hb => hacross b hb a List.mem_cons_self, ha⟩

lemma Sorted.left (h : (node c l a r).Sorted key) : l.Sorted key := (pairwise_node h).1

lemma Sorted.right (h : (node c l a r).Sorted key) : r.Sorted key := (pairwise_node h).2.1

lemma Sorted.lt_of_mem_left (h : (node c l a r).Sorted key) (hb : b ∈ l.inorder) :
    key b < key a := (pairwise_node h).2.2.1 b hb

lemma Sorted.lt_of_mem_right (h : (node c l a r).Sorted key) (hb : b ∈ r.inorder) :
    key a < key b := (pairwise_node h).2.2.2 b hb

/-- Keys are unique. -/
lemma Sorted.eq_of_key (h : t.Sorted key) (ha : a ∈ t.inorder) (hb : b ∈ t.inorder)
    (hk : key a = key b) : a = b := by
  have hn : (t.inorder.map key).Nodup := (List.pairwise_map.mpr h).imp ne_of_lt
  exact List.inj_on_of_nodup_map hn ha hb hk

/-! ### Search -/

/-- A search finds exactly the value of its key. -/
lemma Sorted.search_eq_some (h : t.Sorted key) :
    t.search key k = some a ↔ a ∈ t.inorder ∧ key a = k := by
  induction t with
  | nil => simp [search]
  | node c l b r ihl ihr =>
    simp only [search, inorder_node, List.mem_append, List.mem_cons]
    split_ifs with hlt hgt
    · -- everything from the root on has a larger key
      rw [ihl h.left]
      constructor
      · rintro ⟨ha, hk⟩
        exact ⟨Or.inl ha, hk⟩
      · rintro ⟨ha | rfl | ha, rfl⟩
        · exact ⟨ha, rfl⟩
        · exact absurd hlt (lt_irrefl _)
        · exact absurd (hlt.trans (h.lt_of_mem_right ha)) (lt_irrefl _)
    · rw [ihr h.right]
      constructor
      · rintro ⟨ha, hk⟩
        exact ⟨Or.inr (Or.inr ha), hk⟩
      · rintro ⟨ha | rfl | ha, rfl⟩
        · exact absurd (hgt.trans (h.lt_of_mem_left ha)) (lt_irrefl _)
        · exact absurd hgt (lt_irrefl _)
        · exact ⟨ha, rfl⟩
    · have hk : key b = k := le_antisymm (not_lt.mp hlt) (not_lt.mp hgt)
      rw [Option.some.injEq]
      constructor
      · rintro rfl
        exact ⟨Or.inr (Or.inl rfl), hk⟩
      · rintro ⟨ha, hka⟩
        have ha' : a ∈ (node c l b r).inorder := by simpa using ha
        exact h.eq_of_key (by simp) ha' (hk.trans hka.symm)

lemma Sorted.search_eq_none (h : t.Sorted key) :
    t.search key k = none ↔ ∀ a ∈ t.inorder, key a ≠ k := by
  rw [Option.eq_none_iff_forall_ne_some]
  constructor
  · intro hn a ha hk
    exact hn a (h.search_eq_some.mpr ⟨ha, hk⟩)
  · intro hn a ha
    obtain ⟨hm, hk⟩ := h.search_eq_some.mp ha
    exact hn a hm hk

/-! ### Insertion -/

/-- Where a leaf enters the in-order sequence: between the smaller and the larger keys. -/
structure Splits (key : α → κ) (k : κ) (t t' : SearchTree γ α) (a : α) (xs ys : List α) : Prop where
  before : t.inorder = xs ++ ys
  after : t'.inorder = xs ++ a :: ys
  lt {x : α} : x ∈ xs → key x < k
  gt {y : α} : y ∈ ys → k < key y

/-- The walk down ends where a search ends: at the value with the key, or at a link into which a
leaf with the key fits. -/
lemma findLink_eq (t : SearchTree γ α) (key : α → κ) (k : κ) (path : List Side) :
    (∃ a, t.search key k = some a ∧ t.findLink key k path = .error a) ∨
    (t.search key k = none ∧ ∃ turns, t.findLink key k path = .ok (path ++ turns) ∧
      ∀ (c : γ) (a : α), t.Sorted key →
        ∃ xs ys, Splits key k t (t.linkNode c a turns) a xs ys) := by
  induction t generalizing path with
  | nil =>
    refine Or.inr ⟨rfl, [], by simp [findLink], ?_⟩
    intro c a _
    exact ⟨[], [], rfl, rfl, fun hx => absurd hx List.not_mem_nil,
      fun hy => absurd hy List.not_mem_nil⟩
  | node c' l b r ihl ihr =>
    simp only [search, findLink]
    split_ifs with hlt hgt
    · rcases ihl (path ++ [.left]) with hf | ⟨hn, turns, hok, hsplit⟩
      · exact Or.inl hf
      · refine Or.inr ⟨hn, .left :: turns, by simpa using hok, ?_⟩
        intro c a ht
        obtain ⟨xs, ys, hs⟩ := hsplit c a ht.left
        refine ⟨xs, ys ++ b :: r.inorder, ?_, ?_, hs.lt, ?_⟩
        · simp [hs.before]
        · simp [linkNode, hs.after]
        · intro y hy
          simp only [List.mem_append, List.mem_cons] at hy
          rcases hy with hy | rfl | hy
          · exact hs.gt hy
          · exact hlt
          · exact hlt.trans (ht.lt_of_mem_right hy)
    · rcases ihr (path ++ [.right]) with hf | ⟨hn, turns, hok, hsplit⟩
      · exact Or.inl hf
      · refine Or.inr ⟨hn, .right :: turns, by simpa using hok, ?_⟩
        intro c a ht
        obtain ⟨xs, ys, hs⟩ := hsplit c a ht.right
        refine ⟨l.inorder ++ b :: xs, ys, ?_, ?_, ?_, hs.gt⟩
        · simp [hs.before]
        · simp [linkNode, hs.after]
        · intro x hx
          simp only [List.mem_append, List.mem_cons] at hx
          rcases hx with hx | rfl | hx
          · exact (ht.lt_of_mem_left hx).trans hgt
          · exact hgt
          · exact hs.lt hx
    · exact Or.inl ⟨b, rfl, rfl⟩

lemma Splits.sorted {t' : SearchTree γ α} {xs ys : List α} (h : Splits key (key a) t t' a xs ys)
    (ht : t.Sorted key) : t'.Sorted key := by
  rw [Sorted, h.before, List.pairwise_append] at ht
  rw [Sorted, h.after, List.pairwise_append]
  refine ⟨ht.1, List.pairwise_cons.mpr ⟨fun y hy => h.gt hy, ht.2.1⟩, ?_⟩
  intro x hx y hy
  rcases List.mem_cons.mp hy with rfl | hy
  · exact h.lt hx
  · exact (h.lt hx).trans (h.gt hy)

/-! ### The least key from a bound on -/

def isNil : SearchTree γ α → Bool
  | nil => true
  | node .. => false

/-- The keys do not decrease along the in-order sequence. -/
def Ordered (key : α → κ) (t : SearchTree γ α) : Prop :=
  t.inorder.Pairwise fun a b => key a ≤ key b

/-- A value with the least key from `k` on, or nothing if all keys are smaller. -/
def LeastFrom (key : α → κ) (k : κ) (t : SearchTree γ α) : Option α → Prop
  | none => ∀ b ∈ t.inorder, key b < k
  | some a => a ∈ t.inorder ∧ k ≤ key a ∧ ∀ b ∈ t.inorder, k ≤ key b → key a ≤ key b

/-- Some node has a left subtree, and `k` lies above all of that subtree and below the node. -/
def LeftGap (key : α → κ) (k : κ) : SearchTree γ α → Prop
  | nil => False
  | node _ l a r =>
    (l ≠ nil ∧ (∀ b ∈ l.inorder, key b < k) ∧ k < key a) ∨ l.LeftGap key k ∨ r.LeftGap key k

lemma Sorted.ordered (h : t.Sorted key) : t.Ordered key := h.imp le_of_lt

lemma Ordered.left (h : (node c l a r).Ordered key) : l.Ordered key := (pairwise_node h).1

lemma Ordered.right (h : (node c l a r).Ordered key) : r.Ordered key := (pairwise_node h).2.1

lemma Ordered.le_of_mem_left (h : (node c l a r).Ordered key) (hb : b ∈ l.inorder) :
    key b ≤ key a := (pairwise_node h).2.2.1 b hb

lemma Ordered.le_of_mem_right (h : (node c l a r).Ordered key) (hb : b ∈ r.inorder) :
    key a ≤ key b := (pairwise_node h).2.2.2 b hb

lemma exists_mem_of_ne_nil (h : t ≠ nil) : ∃ a, a ∈ t.inorder := by
  cases t with
  | nil => exact absurd rfl h
  | node c l a r => exact ⟨a, by simp⟩

/-- There are keys on both sides of a gap. -/
lemma LeftGap.exists_lt_gt (h : t.LeftGap key k) :
    (∃ b ∈ t.inorder, key b < k) ∧ ∃ b ∈ t.inorder, k < key b := by
  induction t with
  | nil => exact h.elim
  | node c l a r ihl ihr =>
    simp only [inorder_node, List.mem_append, List.mem_cons]
    rcases h with ⟨hl, hlt, hgt⟩ | hgap | hgap
    · obtain ⟨b, hb⟩ := exists_mem_of_ne_nil hl
      exact ⟨⟨b, Or.inl hb, hlt b hb⟩, a, Or.inr (Or.inl rfl), hgt⟩
    · obtain ⟨⟨b, hb, hlt⟩, b', hb', hgt⟩ := ihl hgap
      exact ⟨⟨b, Or.inl hb, hlt⟩, b', Or.inl hb', hgt⟩
    · obtain ⟨⟨b, hb, hlt⟩, b', hb', hgt⟩ := ihr hgap
      exact ⟨⟨b, Or.inr (Or.inr hb), hlt⟩, b', Or.inr (Or.inr hb'), hgt⟩

/-- There is no gap in a left subtree that ends at the bound or below it. -/
lemma Ordered.not_leftGap_left (h : (node c l a r).Ordered key) (hk : key a ≤ k) :
    ¬ l.LeftGap key k := by
  intro hgap
  obtain ⟨-, b, hb, hlt⟩ := hgap.exists_lt_gt
  exact absurd ((h.le_of_mem_left hb).trans hk) (not_le.mpr hlt)

/-- There is no gap in a right subtree that starts at the bound or above it. -/
lemma Ordered.not_leftGap_right (h : (node c l a r).Ordered key) (hk : k ≤ key a) :
    ¬ r.LeftGap key k := by
  intro hgap
  obtain ⟨⟨b, hb, hlt⟩, -⟩ := hgap.exists_lt_gt
  exact absurd (hk.trans (h.le_of_mem_right hb)) (not_le.mpr hlt)

/-- There is no gap at all, if the root has the bound for a key, or lies above it and has no left
subtree. -/
lemma Ordered.not_leftGap_root (h : (node c l a r).Ordered key) (hk : k ≤ key a)
    (hl : key a = k ∨ l = nil) : ¬ (node c l a r).LeftGap key k := by
  rintro (⟨hne, -, hgt⟩ | hgap | hgap)
  · rcases hl with heq | hl
    · exact absurd heq hgt.ne'
    · exact hne hl
  · rcases hl with heq | rfl
    · exact h.not_leftGap_left heq.le hgap
    · exact hgap
  · exact h.not_leftGap_right hk hgap

lemma Ordered.leftGap_of_lt (h : (node c l a r).Ordered key) (hk : key a < k) :
    (node c l a r).LeftGap key k ↔ r.LeftGap key k := by
  simp only [LeftGap, hk.not_gt, and_false, h.not_leftGap_left hk.le, false_or]

lemma Ordered.leftGap_of_gt (h : (node c l a r).Ordered key) (hk : k < key a)
    (hl : ¬ ∀ b ∈ l.inorder, key b < k) : (node c l a r).LeftGap key k ↔ l.LeftGap key k := by
  simp only [LeftGap, hl, false_and, and_false, h.not_leftGap_right hk.le, false_or, or_false]

/-- The root has the least key from the bound on, if the left subtree lies below the bound. -/
lemma Ordered.leastFrom_root (h : (node c l a r).Ordered key) (hk : k ≤ key a)
    (hl : ∀ b ∈ l.inorder, k ≤ key b → key a ≤ key b) :
    (node c l a r).LeastFrom key k (some a) := by
  refine ⟨by simp, hk, ?_⟩
  intro b hb hkb
  simp only [inorder_node, List.mem_append, List.mem_cons] at hb
  rcases hb with hb | rfl | hb
  · exact hl b hb hkb
  · exact le_refl _
  · exact h.le_of_mem_right hb

/-- Below a root that lies below the bound, the least key from the bound on is in the right
subtree. -/
lemma Ordered.leastFrom_right (h : (node c l a r).Ordered key) (hk : key a < k) {o : Option α} :
    (node c l a r).LeastFrom key k o ↔ r.LeastFrom key k o := by
  have hmem : ∀ b, b ∈ (node c l a r).inorder → k ≤ key b → b ∈ r.inorder := by
    intro b hb hkb
    simp only [inorder_node, List.mem_append, List.mem_cons] at hb
    rcases hb with hb | rfl | hb
    · exact absurd ((h.le_of_mem_left hb).trans_lt hk) (not_lt.mpr hkb)
    · exact absurd hk (not_lt.mpr hkb)
    · exact hb
  have hr : ∀ b, b ∈ r.inorder → b ∈ (node c l a r).inorder := by
    intro b hb
    simp [hb]
  cases o with
  | none =>
    constructor
    · exact fun hn b hb => hn b (hr b hb)
    · intro hn b hb
      by_contra hkb
      exact hkb (hn b (hmem b hb (not_lt.mp hkb)))
  | some x =>
    constructor
    · rintro ⟨hx, hkx, hle⟩
      exact ⟨hmem x hx hkx, hkx, fun b hb => hle b (hr b hb)⟩
    · rintro ⟨hx, hkx, hle⟩
      exact ⟨hr x hx, hkx, fun b hb hkb => hle b (hmem b hb hkb) hkb⟩

/-- A value of the left subtree has the least key of the tree from the bound on, if and only if it
has that of the subtree. -/
lemma Ordered.leastFrom_left (h : (node c l a r).Ordered key) (hb : b ∈ l.inorder) :
    (node c l a r).LeastFrom key k (some b) ↔ l.LeastFrom key k (some b) := by
  constructor
  · rintro ⟨-, hkb, hle⟩
    exact ⟨hb, hkb, fun x hx => hle x (by simp [hx])⟩
  · rintro ⟨-, hkb, hle⟩
    refine ⟨by simp [hb], hkb, ?_⟩
    intro x hx hkx
    simp only [inorder_node, List.mem_append, List.mem_cons] at hx
    rcases hx with hx | rfl | hx
    · exact hle x hx hkx
    · exact h.le_of_mem_left hb
    · exact (h.le_of_mem_left hb).trans (h.le_of_mem_right hx)

end SearchTree
