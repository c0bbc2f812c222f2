import FastMap.StackSession

/-!
# The two levels agree

Over a lower file system that keeps to the rules of the VFS, the two ways from an upper dentry to a
lower inode meet: the lower inode of its inode is the inode of its lower dentry. Then no call
follows an empty pointer, releases a lock that it does not hold, or waits for itself.
-/

namespace FastMap

variable {leaked : Multiset LowerInodeId} {more : Multiset LowerPath} {err : ℤ}

/-- What becomes of a lower file system while some of its dentries and inodes are held: a dentry
that is held, or has a child that is, keeps its inode, and an inode that is held keeps its number
and its type. -/
structure LowerFs.Keeps (L : LowerFs) (dentries : Multiset LowerDentry)
    (inodes : Multiset LowerInodeId) (L' : LowerFs) : Prop where
  dInode {d : LowerDentry} {li : LowerInodeId} : d ∈ dentries → L.dInode d = some li →
    L'.dInode d = some li
  parent {d : LowerDentry} : d ∈ dentries → L'.dInode (L.dParent d) = some (L.parentInode d)
  iIno {li : LowerInodeId} : li ∈ inodes → L'.iIno li = L.iIno li
  iMode {li : LowerInodeId} : li ∈ inodes → L'.iMode li = L.iMode li

lemma LowerFs.Keeps.refl (L : LowerFs) (D : Multiset LowerDentry) (R : Multiset LowerInodeId) :
    L.Keeps D R L :=
  ⟨fun _ h => h, fun _ => L.dInode_dParent _, fun _ => rfl, fun _ => rfl⟩

/-- What `wrapfs_iget` has made of an upper inode, apart from attributes that change. -/
def Inode.Over (L : LowerFs) (li : LowerInodeId) (x : Inode) : Prop :=
  { x with nlink := L.iNlink li } = Upper.initInode L li

lemma Inode.Over.mono {L L' : LowerFs} {li : LowerInodeId} {x y : Inode} (h : x.Over L li)
    (hi : L'.iIno li = L.iIno li) (hm : L'.iMode li = L.iMode li)
    (hy : { y with nlink := 0 } = { x with nlink := 0 }) : y.Over L' li := by
  obtain ⟨xl, xi, xm, xo, xf, xn⟩ := x
  obtain ⟨yl, yi, ym, yo, yf, yn⟩ := y
  simp only [Over, Upper.initInode, Inode.mk.injEq] at h hy ⊢
  rw [hi, hm]
  obtain ⟨rfl, rfl, rfl, rfl, rfl, -⟩ := hy
  exact ⟨h.1, h.2.1, h.2.2.1, h.2.2.2.1, h.2.2.2.2.1, trivial⟩

namespace Layers

/-- Every dentry has a lower path, its parent is there, the two ways to the lower inode meet, and
the inodes are as their lower ones are. -/
structure Coherent (s : Layers) : Prop where
  path {u : DentryId} : u ∈ s.up.dentries → ∃ p, (s.up.dentry u).fsdata = some (some p)
  parent {u : DentryId} : u ∈ s.up.dentries → (s.up.dentry u).parent ∈ s.up.dentries
  inode {u : DentryId} {p : LowerPath} {i : InodeId} : u ∈ s.up.dentries →
    (s.up.dentry u).fsdata = some (some p) → (s.up.dentry u).inode = some i →
    s.lower.dInode p.dentry = (s.up.inode i).lower
  kind {i : InodeId} {li : LowerInodeId} : i ∈ s.up.inodes → (s.up.inode i).lower = some li →
    (s.up.inode i).Over s.lower li

end Layers

namespace Upper

variable {s t s' : Upper} {u a : DentryId} {i : InodeId} {p : LowerPath}

lemma Ok.mem_inodes {hand : Multiset InodeId} (h : s.Ok hand leaked) (hu : u ∈ s.dentries)
    (hi : (s.dentry u).inode = some i) : i ∈ s.inodes := by
  rw [h.live, h.inodeRefs]
  exact Multiset.mem_add.mpr (Or.inl (mem_holdings.mpr ⟨u, hu, hi⟩))

lemma Ok.mem_lowerRefs {hand : Multiset InodeId} (h : s.Ok hand leaked) {li : LowerInodeId}
    (hi : i ∈ s.inodes) (hl : (s.inode i).lower = some li) : li ∈ s.lowerRefs := by
  rw [h.lowerRefs]
  exact Multiset.mem_add.mpr (Or.inl (mem_holdings.mpr ⟨i, hi, hl⟩))

lemma mem_paths (hu : u ∈ s.dentries) (hp : (s.dentry u).fsdata = some (some p)) : p ∈ s.paths :=
  Multiset.mem_add.mpr (Or.inl (mem_holdings.mpr ⟨u, hu, by simp [hp]⟩))

lemma Gets.inode_eq {L : LowerFs} {li : LowerInodeId} {j : InodeId} (hg : Gets s L li i t)
    (hj : j ∈ s.inodes) : t.inode j = s.inode j := by
  cases hg with
  | cached _ => rfl
  | new _ =>
    have hne : j ≠ s.freshInode := fun e => s.freshInode_notMem (e ▸ hj)
    exact Function.update_of_ne hne _ _

lemma Gets.lower {L : LowerFs} {li : LowerInodeId} (hg : Gets s L li i t) :
    (t.inode i).lower = some li := by
  cases hg with
  | cached hc => exact (of_cached hc).2
  | new _ => simp [addInode, initInode]

/-- From one state to another the dentries keep their inodes and paths, and the inodes all but the
attributes that change. -/
structure Alike (s s' : Upper) : Prop where
  dentries : s'.dentries = s.dentries
  fsdata {u : DentryId} : u ∈ s.dentries → (s'.dentry u).fsdata = (s.dentry u).fsdata
  link {u : DentryId} {i : InodeId} : u ∈ s.dentries → (s'.dentry u).inode = some i →
    (s.dentry u).inode = some i
  parent {u : DentryId} : (∀ v ∈ s.dentries, (s.dentry v).parent ∈ s.dentries) → u ∈ s.dentries →
    (s'.dentry u).parent ∈ s.dentries
  inodes : s'.inodes ⊆ s.inodes
  inode {i : InodeId} : i ∈ s.inodes →
    { s'.inode i with nlink := 0 } = { s.inode i with nlink := 0 }

namespace Alike

lemma refl (s : Upper) : Alike s s :=
  ⟨rfl, fun _ => rfl, fun _ h => h, fun h hu => h _ hu, subset_rfl, fun _ => rfl⟩

lemma trans (h : Alike s t) (hi : t.inodes = s.inodes) (h' : Alike t s') : Alike s s' where
  dentries := h'.dentries.trans h.dentries
  fsdata hu := (h'.fsdata (h.dentries ▸ hu)).trans (h.fsdata hu)
  link hu hl := h.link hu (h'.link (h.dentries ▸ hu) hl)
  parent hp hu := by
    have := h'.parent (fun v hv => h.dentries ▸ h.parent hp (h.dentries ▸ hv)) (h.dentries ▸ hu)
    rwa [h.dentries] at this
  inodes := h'.inodes.trans h.inodes
  inode hj := (h'.inode (hi ▸ hj)).trans (h.inode hj)

lemma modifyInode (s : Upper) (i : InodeId) (n : ℕ) :
    Alike s (s.modifyInode i fun x => { x with nlink := n }) :=
  { refl s with
    inode := by
      intro j _
      by_cases hj : j = i
      · subst hj
        simp [Upper.modifyInode]
      · simp [Upper.modifyInode, hj] }

lemma unhash (s : Upper) (u : DentryId) :
    Alike s (s.modifyDentry u fun d => { d with hashed := false }) := by
  have hd : ∀ v, (s.modifyDentry u fun d => { d with hashed := false }).dentry v =
      { s.dentry v with hashed := ((s.modifyDentry u fun d =>
        { d with hashed := false }).dentry v).hashed } := by
    intro v
    by_cases hv : v = u
    · subst hv
      simp [Upper.modifyDentry]
    · simp [Upper.modifyDentry, hv]
  exact
    { refl s with
      fsdata := fun {v} _ => by rw [hd]
      link := fun {v} _ _ hl => by rw [hd] at hl; exact hl
      parent := fun {v} hp hv => by rw [hd]; exact hp v hv }

lemma agrees (h : Agrees s t) : Alike s t := by
  obtain ⟨he, hi⟩ := h
  rw [he]
  exact { refl s with inode := fun hj => by simp only; rw [hi hj] }

/-- Two dentries that change places: their parents are dentries of before. -/
lemma dMove (ha : a ∈ s.dentries) (hu : u ∈ s.dentries) : Alike s (s.dMove a u) := by
  have hself : ∀ v, ((s.dMove a u).dentry v).fsdata = (s.dentry v).fsdata ∧
      ((s.dMove a u).dentry v).inode = (s.dentry v).inode := by
    intro v
    by_cases hva : v = a
    · by_cases hau : a = u
      · subst hva hau
        simp [Upper.dMove, Upper.modifyDentry]
      · subst hva
        simp [Upper.dMove, Upper.modifyDentry, hau]
    · by_cases hvu : v = u
      · subst hvu
        simp [Upper.dMove, Upper.modifyDentry, hva]
      · simp [Upper.dMove, Upper.modifyDentry, hva, hvu]
  refine { refl s with
    fsdata := fun _ => (hself _).1
    link := fun _ h => (hself _).2 ▸ h
    parent := ?_ }
  intro v hp hv
  by_cases hva : v = a
  · subst hva
    simpa [Upper.dMove, Upper.modifyDentry] using hp u hu
  · by_cases hvu : v = u
    · subst hvu
      by_cases hroot : (s.dentry a).parent = a
      · simpa [Upper.dMove, Upper.modifyDentry, hva, hroot] using hu
      · simpa [Upper.dMove, Upper.modifyDentry, hva, hroot] using hp a ha
    · simpa [Upper.dMove, Upper.modifyDentry, hva, hvu] using hp v hv

end Alike

end Upper

/-! ### Work on the two file systems -/

namespace Layers

variable {D : Multiset LowerDentry} {s s' : Layers} {u : DentryId} {p : LowerPath}

/-- The two levels agree, and the dentries of the lower paths are held. -/
structure Sound (leaked : Multiset LowerInodeId) (D : Multiset LowerDentry) (s : Layers) : Prop where
  good : s.up.Good leaked
  coherent : s.Coherent
  paths {p : LowerPath} : p ∈ s.up.paths → p.dentry ∈ D

namespace Sound

lemma positive (h : s.Sound leaked D) {i : InodeId} (hu : u ∈ s.up.dentries)
    (hi : (s.up.dentry u).inode = some i) : ∃ p li, (s.up.dentry u).fsdata = some (some p) ∧
      p.dentry ∈ D ∧ (s.up.inode i).lower = some li ∧ s.lower.dInode p.dentry = some li ∧
      i ∈ s.up.inodes := by
  obtain ⟨p, hp⟩ := h.coherent.path hu
  have hmem := h.good.toOk.mem_inodes hu hi
  obtain ⟨li, hli⟩ := Option.isSome_iff_exists.mp (h.good.lower hmem)
  exact ⟨p, li, hp, h.paths (Upper.mem_paths hu hp), hli, (h.coherent.inode hu hp hi).trans hli,
    hmem⟩

lemma alike (h : s.Sound leaked D) (hk : Upper.Keeps leaked s.up s'.up)
    (ha : Upper.Alike s.up s'.up) (hL : s.lower.Keeps D s.up.lowerRefs s'.lower) :
    s'.Sound leaked D := by
  have hlow : ∀ {i}, i ∈ s.up.inodes → (s'.up.inode i).lower = (s.up.inode i).lower := fun hi =>
    (Inode.mk.inj (ha.inode hi)).1
  refine ⟨hk.good, ⟨?_, ?_, ?_, ?_⟩, fun hp => h.paths (hk.paths ▸ hp)⟩
  · intro v hv
    rw [hk.dentries] at hv
    rw [ha.fsdata hv]
    exact h.coherent.path hv
  · intro v hv
    rw [hk.dentries] at hv ⊢
    exact ha.parent (fun _ => h.coherent.parent) hv
  · intro v p i hv hp hi
    rw [hk.dentries] at hv
    rw [ha.fsdata hv] at hp
    obtain ⟨q, li, hq, hD, hli, hd, hmem⟩ := h.positive hv (ha.link hv hi)
    obtain rfl : q = p := by simpa [hp] using hq.symm
    rw [hlow hmem, hli]
    exact hL.dInode hD hd
  · intro i li hi hl
    have hmem := ha.inodes hi
    rw [hlow hmem] at hl
    have hR := h.good.toOk.mem_lowerRefs hmem hl
    exact (h.coherent.kind hmem hl).mono (hL.iIno hR) (hL.iMode hR) (ha.inode hmem)

lemma call (h : s.Sound leaked D) {L : LowerFs} (hL : s.lower.Keeps D s.up.lowerRefs L) :
    Sound leaked D { s with lower := L } :=
  h.alike (.refl h.good) (.refl s.up) hL

lemma setNlink (h : s.Sound leaked D) (i : InodeId) (li : LowerInodeId) :
    (s.setNlink i li).Sound leaked D :=
  h.alike (setNlink_keeps h.good i li) (.modifyInode s.up i _) (.refl _ _ _)

lemma clearNlink (h : s.Sound leaked D) (i : Option InodeId) : (s.clearNlink i).Sound leaked D := by
  cases i with
  | none => exact h
  | some i => exact h.alike (clearNlink_keeps h.good (some i)) (.modifyInode s.up i 0) (.refl _ _ _)

lemma dDrop (h : s.Sound leaked D) (u : DentryId) : (s.dDrop u).Sound leaked D :=
  h.alike (dDrop_keeps h.good u) (.unhash s.up u) (.refl _ _ _)

/-- `__wrapfs_interpose` on a negative dentry with its lower path. -/
lemma interposed {o : InterposeEnv} {ret : DentryRet} {t : Upper} (h : s.Sound leaked D)
    (hu : u ∈ s.up.dentries) (hp : (s.up.dentry u).fsdata = some (some p))
    (hn : (s.up.dentry u).inode = none)
    (ho : ∀ a, o.splice = .other a → a ∈ s.up.dentries ∧ (s.up.dentry a).inode.isSome)
    (hi : s.up.Interposed s.lower u p o ret t) : Sound leaked D ⟨s.lower, t⟩ := by
  have hk := h.good.interposed hu hn (fun a ha => (ho a ha).2) hi
  cases hi with
  | err ha => exact h.alike hk (.agrees ha) (.refl _ _ _)
  | @other a t ha hag =>
    have hin : t.inodes = s.up.inodes := by rw [hag.eq]
    have hds : t.dentries = s.up.dentries := by rw [hag.eq]
    have hmove : Upper.Alike s.up (t.dMove a u) :=
      (Upper.Alike.agrees hag).trans hin (.dMove (hds ▸ (ho a ha).1) (hds ▸ hu))
    exact (h.alike hk hmove (.refl _ _ _) : Sound leaked D ⟨s.lower, t.dMove a u⟩)
  | @add li i t hl hg hh =>
    have hd : ∀ v, v ≠ u → (t.modifyDentry u fun d =>
        { d with inode := some i, hashed := true }).dentry v = s.up.dentry v := by
      intro v hv
      rw [Upper.modifyDentry, hg.dentry_eq]
      exact Function.update_of_ne hv _ _
    have hself : (t.modifyDentry u fun d => { d with inode := some i, hashed := true }).dentry u =
        { s.up.dentry u with inode := some i, hashed := true } := by
      rw [Upper.modifyDentry, hg.dentry_eq]
      exact Function.update_self _ _ _
    have hmem : ∀ {v}, v ∈ t.dentries ↔ v ∈ s.up.dentries := by rw [hg.dentries_eq]
    refine ⟨hk.good, ⟨?_, ?_, ?_, ?_⟩, fun hq => h.paths (hk.paths ▸ hq)⟩
    · intro v hv
      by_cases hvu : v = u
      · subst hvu
        exact ⟨p, by rw [hself]; exact hp⟩
      · rw [hd v hvu]
        exact h.coherent.path (hmem.mp hv)
    · intro v hv
      refine hmem.mpr ?_
      by_cases hvu : v = u
      · subst hvu
        rw [hself]
        exact h.coherent.parent hu
      · rw [hd v hvu]
        exact h.coherent.parent (hmem.mp hv)
    · intro v q j hv hq hj
      by_cases hvu : v = u
      · subst hvu
        rw [hself] at hq hj
        obtain rfl : q = p := by simpa [hp] using hq.symm
        obtain rfl : i = j := by simpa using hj
        exact hl.trans hg.lower.symm
      · rw [hd v hvu] at hq hj
        have hjm := h.good.toOk.mem_inodes (hmem.mp hv) hj
        show _ = (t.inode j).lower
        rw [hg.inode_eq hjm]
        exact h.coherent.inode (hmem.mp hv) hq hj
    · intro j lj hj hlj
      have hold : j ∈ s.up.inodes → (t.inode j).Over s.lower lj := by
        intro hjm
        have hlj' : (t.inode j).lower = some lj := hlj
        rw [hg.inode_eq hjm] at hlj' ⊢
        exact h.coherent.kind hjm hlj'
      cases hg with
      | cached _ => exact hold hj
      | new _ =>
        rcases Finset.mem_insert.mp hj with rfl | hj
        · have hnew : (s.up.addInode s.lower li).inode s.up.freshInode =
              Upper.initInode s.lower li := Function.update_self _ _ _
          have hlj' : ((s.up.addInode s.lower li).inode s.up.freshInode).lower = some lj := hlj
          rw [hnew] at hlj'
          obtain rfl : li = lj := by simpa [Upper.initInode] using hlj'
          show ((s.up.addInode s.lower li).inode s.up.freshInode).Over s.lower li
          rw [hnew]
          rfl
        · exact hold hj

end Sound

lemma Sound.dMove {a : DentryId} (h : s.Sound leaked D) (ha : a ∈ s.up.dentries)
    (hu : u ∈ s.up.dentries) (hp : (s.up.dentry a).inode.isSome) :
    Sound leaked D { s with up := s.up.dMove a u } :=
  h.alike (h.good.dMove hp) (.dMove ha hu) (.refl _ _ _)

lemma Made.sound {links : Bool} {dir : InodeId} {o : MakeEnv} (hm : Made links dir u p o s err s')
    (h : s.Sound leaked D) (hL : s.lower.Keeps D s.up.lowerRefs o.call.fs)
    (hu : u ∈ s.up.dentries) (hp : (s.up.dentry u).fsdata = some (some p))
    (hn : (s.up.dentry u).inode = none)
    (ho : ∀ a, o.interpose.splice = .other a → a ∈ s.up.dentries ∧ (s.up.dentry a).inode.isSome) :
    s'.Sound leaked D := by
  have hc := h.call hL
  cases hm with
  | refused _ => exact hc
  | failed _ hi _ => exact hc.interposed hu hp hn ho hi
  | @made ret t li _ hi _ _ =>
    have ht := hc.interposed hu hp hn ho hi
    cases links with
    | false => exact ht
    | true => exact ht.setNlink dir li

lemma Linked.sound {old new : DentryId} {o : MakeEnv} (hm : Linked old new p o s err s')
    (h : s.Sound leaked D) (hL : s.lower.Keeps D s.up.lowerRefs o.call.fs)
    (hu : new ∈ s.up.dentries) (hp : (s.up.dentry new).fsdata = some (some p))
    (hn : (s.up.dentry new).inode = none)
    (ho : ∀ a, o.interpose.splice = .other a → a ∈ s.up.dentries ∧ (s.up.dentry a).inode.isSome) :
    s'.Sound leaked D := by
  have hc := h.call hL
  cases hm with
  | refused _ => exact hc
  | failed _ hi _ => exact hc.interposed hu hp hn ho hi
  | @linked ret t i li _ hi _ _ _ => exact (hc.interposed hu hp hn ho hi).setNlink i li

lemma Unlinked.sound {dir : InodeId} {o : RemoveEnv} (hm : Unlinked dir u p o s err s')
    (h : s.Sound leaked D) (hL : s.lower.Keeps D s.up.lowerRefs o.call.fs) :
    s'.Sound leaked D := by
  cases hm with
  | refused _ => exact h.call hL
  | unlinked _ _ _ _ => exact ((h.call hL).setNlink _ _).dDrop u

lemma Rmdired.sound {dir : InodeId} {call : LowerCall} {parent : LowerDentry}
    (hm : Rmdired dir u call parent s err s') (h : s.Sound leaked D)
    (hL : s.lower.Keeps D s.up.lowerRefs call.fs) : s'.Sound leaked D := by
  cases hm with
  | refused _ => exact h.call hL
  | removed _ _ => exact (((h.call hL).dDrop u).clearNlink _).setNlink dir _

lemma Renamed.sound {oldDir newDir : InodeId} {old new : LowerDentry} {o : RenameEnv}
    (hm : Renamed oldDir newDir old new o s err s') (h : s.Sound leaked D)
    (hL : s.lower.Keeps D s.up.lowerRefs o.call.fs) : s'.Sound leaked D := by
  cases hm with
  | trapped _ => exact h
  | refused _ => exact h.call hL
  | within _ _ _ => exact (h.call hL).setNlink newDir _
  | across _ _ _ _ => exact ((h.call hL).setNlink newDir _).setNlink oldDir _

lemma HandedOn.sound {call : LowerCall} (hm : HandedOn u p call s s') (h : s.Sound leaked D)
    (hL : s.lower.Keeps D s.up.lowerRefs call.fs) : s'.Sound leaked D := by
  cases hm with
  | unsupported => exact h
  | called => exact h.call hL
  | copied _ _ => exact (h.call hL).setNlink _ _

end Layers

end FastMap
