import FastMap.StackRuns

/-!
# References of the stacked file system

Every reference that the driver takes on a lower object belongs to an upper object: a lower path to
an upper dentry or to an open file, a lower inode to an upper inode. A call holds others while it
runs, and gives them back on every way out.
-/

namespace FastMap

namespace Upper

/-- The references are those of the objects, `hand` that a call has in its hands, and `leaked` that
nobody will drop. No two upper inodes are over the same lower one. -/
structure Ok (hand : Multiset InodeId) (leaked : Multiset LowerInodeId) (s : Upper) : Prop where
  inodeRefs : s.inodeRefs = holdings s.dentries (fun u => (s.dentry u).inode) + hand
  lowerRefs : s.lowerRefs = holdings s.inodes (fun i => (s.inode i).lower) + leaked
  live {i : InodeId} : i ∈ s.inodes ↔ i ∈ s.inodeRefs
  lower {i : InodeId} : i ∈ s.inodes → (s.inode i).lower.isSome
  unique {i j : InodeId} : i ∈ s.inodes → j ∈ s.inodes →
    (s.inode i).lower = (s.inode j).lower → i = j

variable {hand : Multiset InodeId} {leaked : Multiset LowerInodeId} {s s' : Upper} {L : LowerFs}
  {u a : DentryId} {i : InodeId} {li : LowerInodeId} {p : LowerPath}

/-! ### Fresh objects and the cache -/

lemma freshDentry_notMem (s : Upper) : s.freshDentry ∉ s.dentries := fun h =>
  Nat.not_succ_le_self _ (Finset.le_sup (f := id) h)

lemma freshInode_notMem (s : Upper) : s.freshInode ∉ s.inodes := fun h =>
  Nat.not_succ_le_self _ (Finset.le_sup (f := id) h)

lemma of_cached (h : s.cached li = some i) : i ∈ s.inodes ∧ (s.inode i).lower = some li := by
  simpa using Finset.mem_of_min h

lemma of_cached_none (h : s.cached li = none) (hi : i ∈ s.inodes) :
    (s.inode i).lower ≠ some li := by
  intro hl
  have : i ∈ s.inodes.filter fun i => (s.inode i).lower = some li := by simp [hi, hl]
  rw [Finset.min_eq_top.mp h] at this
  simp at this

/-- What `wrapfs_iget` leaves when it makes a new inode. -/
def addInode (s : Upper) (L : LowerFs) (li : LowerInodeId) : Upper :=
  { s with
    inodes := insert s.freshInode s.inodes
    inode := Function.update s.inode s.freshInode (initInode L li)
    inodeRefs := s.freshInode ::ₘ s.inodeRefs
    lowerRefs := li ::ₘ s.lowerRefs }

/-- `wrapfs_iget` returns an inode over `li`: one from the cache, or a new one. -/
inductive Gets (s : Upper) (L : LowerFs) (li : LowerInodeId) : InodeId → Upper → Prop
  | cached {i : InodeId} : s.cached li = some i →
      Gets s L li i { s with inodeRefs := i ::ₘ s.inodeRefs }
  | new : s.cached li = none → Gets s L li s.freshInode (s.addInode L li)

/-- `wrapfs_iget` of a lower inode that has no upper one. -/
lemma iget_of_cached_none (hc : s.cached li = none) (L : LowerFs) (o : IgetEnv) :
    s.iget L li o =
      if !o.igrab then .ok (.error (-estale), s)
      else if o.alloc then .ok (.ok s.freshInode, s.addInode L li)
      else .ok (.error (-enomem), s) := by
  have hc' : (s.igrab li).cached li = none := hc
  by_cases hg : o.igrab = true
  · by_cases ha : o.alloc = true
    · simp only [iget, hg, iget5Locked, hc', ha]
      simp [igrab, addInode, modifyInode, freshInode]
    · have h5 : (s.igrab li).iget5Locked li o.alloc = (none, s.igrab li) := by
        simp [iget5Locked, hc', ha]
      simp only [iget, hg, h5]
      simp [ha, igrab, iputLower, Except.ok_bind, Except.pure_eq_ok]
  · simp [iget, hg]

/-- `wrapfs_iget` fails and changes nothing, or returns an inode. -/
lemma iget_cases (s : Upper) (L : LowerFs) (li : LowerInodeId) (o : IgetEnv) :
    (∃ e, e ≠ 0 ∧ s.iget L li o = .ok (.error e, s)) ∨
    (∃ i t, s.iget L li o = .ok (.ok i, t) ∧ Gets s L li i t) := by
  cases hi : s.cached li with
  | none =>
    rw [iget_of_cached_none hi]
    split_ifs with hg ha
    · exact Or.inl ⟨-estale, by decide, rfl⟩
    · exact Or.inr ⟨s.freshInode, _, rfl, .new hi⟩
    · exact Or.inl ⟨-enomem, by decide, rfl⟩
  | some i =>
    by_cases hg : o.igrab = true
    · have hc : (s.igrab li).cached li = some i := hi
      have h5 : (s.igrab li).iget5Locked li o.alloc =
          (some (i, false), { s.igrab li with inodeRefs := i ::ₘ s.inodeRefs }) := by
        simp only [iget5Locked, hc]
        rfl
      refine Or.inr ⟨i, _, ?_, .cached hi⟩
      simp only [iget, hg, h5]
      simp [igrab, iputLower, Except.ok_bind, Except.pure_eq_ok]
    · exact Or.inl ⟨-estale, by decide, by simp [iget, hg]⟩

namespace Ok

private lemma cached (h : s.Ok hand leaked) (hi : s.cached li = some i) :
    { s with inodeRefs := i ::ₘ s.inodeRefs }.Ok (i ::ₘ hand) leaked where
  inodeRefs := by simp [h.inodeRefs]
  lowerRefs := h.lowerRefs
  live := by
    intro j
    rw [Multiset.mem_cons, ← h.live]
    exact ⟨Or.inr, fun hj => hj.elim (fun e => e ▸ (of_cached hi).1) id⟩
  lower := h.lower
  unique := h.unique

private lemma addInode (h : s.Ok hand leaked) (hn : s.cached li = none) (L : LowerFs) :
    (s.addInode L li).Ok (s.freshInode ::ₘ hand) leaked := by
  have hne : ∀ {j}, j ∈ s.inodes → j ≠ s.freshInode := fun hj e =>
    s.freshInode_notMem (e ▸ hj)
  have hold : ∀ {j}, j ∈ s.inodes → (s.addInode L li).inode j = s.inode j := fun hj =>
    Function.update_of_ne (hne hj) _ _
  have hnew : (s.addInode L li).inode s.freshInode = initInode L li := Function.update_self _ _ _
  constructor
  · show s.freshInode ::ₘ s.inodeRefs = _
    rw [h.inodeRefs, Multiset.add_cons]
    rfl
  · show li ::ₘ s.lowerRefs = holdings (insert s.freshInode s.inodes) _ + leaked
    rw [holdings_insert_congr s.freshInode_notMem (f := fun i => (s.inode i).lower)
      fun j hj => by rw [hold hj], hnew, h.lowerRefs]
    simp [initInode]
  · intro j
    show j ∈ insert s.freshInode s.inodes ↔ j ∈ s.freshInode ::ₘ s.inodeRefs
    rw [Finset.mem_insert, Multiset.mem_cons, h.live]
  · intro j hj
    rcases Finset.mem_insert.mp hj with rfl | hj
    · rw [hnew]
      rfl
    · rw [hold hj]
      exact h.lower hj
  · intro j k hj hk he
    rcases Finset.mem_insert.mp hj with rfl | hj <;> rcases Finset.mem_insert.mp hk with rfl | hk
    · rfl
    · rw [hnew, hold hk] at he
      exact absurd he.symm (of_cached_none hn hk)
    · rw [hold hj, hnew] at he
      exact absurd he (of_cached_none hn hj)
    · rw [hold hj, hold hk] at he
      exact h.unique hj hk he

/-- The inode that `wrapfs_iget` returns comes with a reference. -/
lemma gets (h : s.Ok hand leaked) (hg : Gets s L li i s') : s'.Ok (i ::ₘ hand) leaked := by
  cases hg with
  | cached hc => exact h.cached hc
  | new hc => exact h.addInode hc L

/-- A change of a dentry that leaves its inode. -/
lemma modifyDentry (h : s.Ok hand leaked) {f : Dentry → Dentry}
    (hf : (f (s.dentry u)).inode = (s.dentry u).inode) : (s.modifyDentry u f).Ok hand leaked where
  inodeRefs := by
    show s.inodeRefs = holdings s.dentries _ + hand
    rw [h.inodeRefs]
    congr 1
    refine holdings_congr fun v _ => ?_
    by_cases hv : v = u
    · subst hv
      simp [Upper.modifyDentry, hf]
    · simp [Upper.modifyDentry, hv]
  lowerRefs := h.lowerRefs
  live := h.live
  lower := h.lower
  unique := h.unique

/-- A change of an inode that leaves its lower inode. -/
lemma modifyInode (h : s.Ok hand leaked) {f : Inode → Inode}
    (hf : (f (s.inode i)).lower = (s.inode i).lower) : (s.modifyInode i f).Ok hand leaked := by
  have hl : ∀ j, ((s.modifyInode i f).inode j).lower = (s.inode j).lower := by
    intro j
    by_cases hj : j = i
    · subst hj
      simp [Upper.modifyInode, hf]
    · simp [Upper.modifyInode, hj]
  exact
    { inodeRefs := h.inodeRefs
      lowerRefs := by
        show s.lowerRefs = holdings s.inodes _ + leaked
        rw [h.lowerRefs, holdings_congr fun j _ => hl j]
      live := h.live
      lower := fun hj => by rw [hl]; exact h.lower hj
      unique := fun hj hk he => h.unique hj hk (by rw [← hl, ← hl, he]) }

/-- A reference in the hands of a call may be given to a dentry without an inode. -/
lemma attach (h : s.Ok (i ::ₘ hand) leaked) (hu : u ∈ s.dentries) (hn : (s.dentry u).inode = none)
    {f : Dentry → Dentry} (hf : (f (s.dentry u)).inode = some i) :
    (s.modifyDentry u f).Ok hand leaked where
  inodeRefs := by
    show s.inodeRefs = holdings s.dentries _ + hand
    have hup := holdings_update (g := fun v => ((s.modifyDentry u f).dentry v).inode)
      (f := fun v => (s.dentry v).inode) hu
      (fun v _ hv => by simp [Upper.modifyDentry, hv])
    have hi : ((s.modifyDentry u f).dentry u).inode = some i := by
      simp [Upper.modifyDentry, hf]
    simp only [hn, hi, held_none, held_some, add_zero] at hup
    rw [h.inodeRefs, hup, add_assoc, Multiset.singleton_add]
  lowerRefs := h.lowerRefs
  live := h.live
  lower := h.lower
  unique := h.unique

/-- A dentry may give its reference to the call. -/
lemma detach (h : s.Ok hand leaked) (hu : u ∈ s.dentries) (hi : (s.dentry u).inode = some i)
    {f : Dentry → Dentry} (hf : (f (s.dentry u)).inode = none) :
    (s.modifyDentry u f).Ok (i ::ₘ hand) leaked where
  inodeRefs := by
    show s.inodeRefs = holdings s.dentries _ + (i ::ₘ hand)
    have hup := holdings_update (g := fun v => ((s.modifyDentry u f).dentry v).inode)
      (f := fun v => (s.dentry v).inode) hu
      (fun v _ hv => by simp [Upper.modifyDentry, hv])
    have hn : ((s.modifyDentry u f).dentry u).inode = none := by
      simp [Upper.modifyDentry, hf]
    simp only [hn, hi, held_none, held_some, add_zero] at hup
    rw [h.inodeRefs, ← hup, add_assoc, Multiset.singleton_add]
  lowerRefs := h.lowerRefs
  live := h.live
  lower := h.lower
  unique := h.unique

/-- Dropping a reference: the inode stays as long as there is another one, and goes with the last,
together with its reference to the lower inode. -/
lemma iput (h : s.Ok (i ::ₘ hand) leaked) : ∃ s', s.iput i = .ok s' ∧ s'.Ok hand leaked ∧
    s' = { s with inodes := s'.inodes, inodeRefs := s'.inodeRefs, lowerRefs := s'.lowerRefs } ∧
    s'.inodes ⊆ s.inodes := by
  have hi : i ∈ s.inodeRefs := by simp [h.inodeRefs]
  have hrest : s.inodeRefs.erase i = holdings s.dentries (fun u => (s.dentry u).inode) + hand := by
    simp [h.inodeRefs, Multiset.add_cons]
  by_cases hm : i ∈ s.inodeRefs.erase i
  · refine ⟨{ s with inodeRefs := s.inodeRefs.erase i }, by simp [Upper.iput, hi, hm], ?_, rfl,
      subset_rfl⟩
    exact
      { inodeRefs := hrest
        lowerRefs := h.lowerRefs
        live := by
          intro j
          rw [h.live]
          by_cases hj : j = i
          · subst hj
            exact ⟨fun _ => hm, fun _ => hi⟩
          · exact (Multiset.mem_erase_of_ne hj).symm
        lower := h.lower
        unique := h.unique }
  · have hlive : i ∈ s.inodes := h.live.mpr hi
    obtain ⟨li, hli⟩ := Option.isSome_iff_exists.mp (h.lower hlive)
    have hsplit := holdings_erase (f := fun i => (s.inode i).lower) hlive
    rw [hli, held_some, Multiset.singleton_add] at hsplit
    have hmem : li ∈ s.lowerRefs := by simp [h.lowerRefs, ← hsplit]
    refine ⟨{ s with
      inodes := s.inodes.erase i
      inodeRefs := s.inodeRefs.erase i
      lowerRefs := s.lowerRefs.erase li }, ?_, ?_, rfl, Finset.erase_subset _ _⟩
    · simp [Upper.iput, hi, hm, evictInode, hli, iputLower, hmem]
    · exact
        { inodeRefs := hrest
          lowerRefs := by simp [h.lowerRefs, ← hsplit]
          live := by
            intro j
            by_cases hj : j = i
            · subst hj
              simpa using hm
            · simpa [hj, Multiset.mem_erase_of_ne hj] using h.live
          lower := fun hj => h.lower (Finset.mem_of_mem_erase hj)
          unique := fun hj hk =>
            h.unique (Finset.mem_of_mem_erase hj) (Finset.mem_of_mem_erase hk) }

lemma dMove (h : s.Ok hand leaked) (a u : DentryId) : (s.dMove a u).Ok hand leaked := by
  unfold Upper.dMove
  refine Ok.modifyDentry (Ok.modifyDentry h ?_) ?_ <;> rfl

end Ok

/-! ### `wrapfs_interpose` -/

/-- Nothing has changed, apart from inodes that are not in use. -/
structure Agrees (s s' : Upper) : Prop where
  eq : s' = { s with inode := s'.inode }
  inode {i : InodeId} : i ∈ s.inodes → s'.inode i = s.inode i

lemma Agrees.refl (s : Upper) : Agrees s s := ⟨rfl, fun _ => rfl⟩

lemma Ok.agrees (h : s.Ok hand leaked) (ha : Agrees s s') : s'.Ok hand leaked := by
  obtain ⟨he, hi⟩ := ha
  rw [he]
  exact
    { inodeRefs := h.inodeRefs
      lowerRefs := by
        rw [h.lowerRefs]
        congr 1
        exact holdings_congr fun i h => by rw [hi h]
      live := h.live
      lower := fun h' => by rw [hi h']; exact h.lower h'
      unique := fun h₁ h₂ he => h.unique h₁ h₂ (by rw [← hi h₁, ← hi h₂, he]) }

/-- Dropping the inode again undoes `wrapfs_iget`. -/
lemma Gets.iput (hg : Gets s L li i s') (h : s.Ok hand leaked) :
    ∃ t, s'.iput i = .ok t ∧ Agrees s t := by
  cases hg with
  | cached hc =>
    have hi : i ∈ s.inodeRefs := h.live.mp (of_cached hc).1
    exact ⟨s, by simp [Upper.iput, hi], .refl s⟩
  | new hc =>
    have hn : s.freshInode ∉ s.inodeRefs := fun hi => s.freshInode_notMem (h.live.mpr hi)
    refine ⟨{ s with inode := (s.addInode L li).inode }, ?_, rfl, ?_⟩
    · simp [Upper.iput, hn, addInode, evictInode, initInode, iputLower, s.freshInode_notMem]
    · intro j hj
      have hne : j ≠ s.freshInode := fun e => s.freshInode_notMem (e ▸ hj)
      exact Function.update_of_ne hne _ _

/-- What `__wrapfs_interpose` does to the upper objects when it returns `ret`. -/
inductive Interposed (s : Upper) (L : LowerFs) (u : DentryId) (p : LowerPath) (o : InterposeEnv) :
    DentryRet → Upper → Prop
  | err {e : ℤ} {t : Upper} : Agrees s t → Interposed s L u p o (.err e) t
  | other {a : DentryId} {t : Upper} : o.splice = .other a → Agrees s t →
      Interposed s L u p o (.dentry a) (t.dMove a u)
  | add {li : LowerInodeId} {i : InodeId} {t : Upper} : L.dInode p.dentry = some li →
      Gets s L li i t → (s.dentry u).hashed = false →
      Interposed s L u p o .null
        (t.modifyDentry u fun d => { d with inode := some i, hashed := true })

lemma Gets.dentry_eq (hg : Gets s L li i s') : s'.dentry = s.dentry := by
  cases hg <;> rfl

lemma Gets.dentries_eq (hg : Gets s L li i s') : s'.dentries = s.dentries := by
  cases hg <;> rfl

lemma interposed {o : InterposeEnv} {ret : DentryRet} (h : s.Ok hand leaked)
    (hr : s.interposeDentry L u p o = .ok (ret, s')) : Interposed s L u p o ret s' := by
  simp only [interposeDentry] at hr
  split at hr
  next li sb hl hs =>
    split_ifs at hr with hsb
    · obtain ⟨rfl, rfl⟩ : DentryRet.err (-exdev) = ret ∧ s = s' := by simpa using hr
      exact .err (.refl s)
    · rcases s.iget_cases L li o.iget with ⟨e, -, he⟩ | ⟨i, t, he, hg⟩
      · obtain ⟨rfl, rfl⟩ : DentryRet.err e = ret ∧ s = s' := by
          simpa [he, Except.ok_bind, Except.pure_eq_ok] using hr
        exact .err (.refl s)
      · rw [he, Except.ok_bind] at hr
        simp only at hr
        have hd : (t.dentry u).hashed = (s.dentry u).hashed := by rw [hg.dentry_eq]
        cases ho : o.splice with
        | add =>
          simp only [ho, dSpliceAlias, hd] at hr
          split_ifs at hr with hh
          obtain ⟨rfl, rfl⟩ : DentryRet.null = ret ∧ _ = s' := by simpa using hr
          exact .add hl hg (by simpa using hh)
        | other a =>
          simp only [ho, dSpliceAlias, hd] at hr
          split_ifs at hr with hh
          obtain ⟨t', ht, ha⟩ := hg.iput h
          obtain ⟨rfl, rfl⟩ : DentryRet.dentry a = ret ∧ _ = s' := by
            simpa [ht, Except.ok_bind, Except.pure_eq_ok] using hr
          exact .other ho ha
        | error e =>
          simp only [ho, dSpliceAlias, hd] at hr
          split_ifs at hr with hh
          obtain ⟨t', ht, ha⟩ := hg.iput h
          obtain ⟨rfl, rfl⟩ : DentryRet.err e = ret ∧ t' = s' := by
            simpa [ht, Except.ok_bind, Except.pure_eq_ok] using hr
          exact .err ha
  next => simp at hr

end Upper

end FastMap
