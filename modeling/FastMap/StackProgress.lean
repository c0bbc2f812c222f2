import FastMap.StackCoherence

/-!
# The calls come to an end

Where the two levels agree and the lower file system keeps to the rules, a call has what it follows
and holds what it gives back.
-/

namespace FastMap

variable {leaked : Multiset LowerInodeId} {err : ℤ}

/-! ### Work on the two file systems -/

namespace Upper

variable {s t : Upper} {L : LowerFs} {u v : DentryId} {p : LowerPath} {o : InterposeEnv}
  {ret : DentryRet}

lemma dMove_inode (s : Upper) (a u v : DentryId) :
    ((s.dMove a u).dentry v).inode = (s.dentry v).inode := by
  by_cases hva : v = a
  · by_cases hau : a = u
    · subst hva hau
      simp [Upper.dMove, Upper.modifyDentry]
    · subst hva
      simp [Upper.dMove, Upper.modifyDentry, hau]
  · by_cases hvu : v = u
    · subst hvu
      simp [Upper.dMove, Upper.modifyDentry, hva]
    · simp [Upper.dMove, Upper.modifyDentry, hva, hvu]

lemma Interposed.inode_eq (h : Interposed s L u p o ret t) {i : InodeId} (hi : i ∈ s.inodes) :
    t.inode i = s.inode i := by
  cases h with
  | err ha => exact ha.inode hi
  | other _ ha => exact ha.inode hi
  | add _ hg _ => exact hg.inode_eq hi

lemma Interposed.link (h : Interposed s L u p o ret t) (hv : v ≠ u) :
    (t.dentry v).inode = (s.dentry v).inode := by
  cases h with
  | err ha => rw [ha.eq]
  | other _ ha => rw [dMove_inode, ha.eq]
  | add _ hg _ => simp [modifyDentry, hv, hg.dentry_eq]

/-- `__wrapfs_interpose` of a lower dentry that has an inode. -/
lemma interposeDentry_returns {li : LowerInodeId} (h : s.Good leaked)
    (hli : L.dInode p.dentry = some li) (hh : (s.dentry u).hashed = false) (o : InterposeEnv) :
    ∃ x, s.interposeDentry L u p o = .ok x := by
  obtain ⟨sb, hsb, -⟩ := h.super
  simp only [interposeDentry, hli, hsb]
  split_ifs with he
  · exact ⟨_, rfl⟩
  · rcases s.iget_cases L li o.iget with ⟨e, -, hg⟩ | ⟨i, t, hg, hgets⟩
    · exact ⟨(.err e, s), by rw [hg]; rfl⟩
    · have ht : (t.dentry u).hashed = false := by rw [hgets.dentry_eq, hh]
      obtain ⟨t', hput, -⟩ := hgets.iput h.toOk
      simp only [hg, Except.ok_bind]
      cases o.splice with
      | add => exact ⟨_, if_neg (by simp [ht])⟩
      | other a =>
        refine ⟨(.dentry a, t'.dMove a u), ?_⟩
        simp [dSpliceAlias, ht, hput, Except.ok_bind, Except.pure_eq_ok]
      | error e =>
        refine ⟨(.err e, t'), ?_⟩
        simp [dSpliceAlias, ht, hput, Except.ok_bind, Except.pure_eq_ok]

end Upper

namespace Layers

variable {D : Multiset LowerDentry} {s s' : Layers} {u : DentryId} {p : LowerPath}

lemma copyAttr_some (s : Layers) (i : InodeId) (li : LowerInodeId) :
    s.copyAttr (some i) (some li) = .ok (s.setNlink i li) := rfl

lemma interpose_returns {li : LowerInodeId} (h : s.Sound leaked D)
    (hli : s.lower.dInode p.dentry = some li) (hu : u ∈ s.up.dentries)
    (hn : (s.up.dentry u).inode = none) (o : InterposeEnv) :
    ∃ ret t, s.interpose u p o = .ok (ret.ptrErr, { s with up := t }) ∧
      s.up.Interposed s.lower u p o ret t := by
  have hh : (s.up.dentry u).hashed = false := by
    have := (h.good.formed hu).hashed
    simpa [hn] using this
  obtain ⟨⟨ret, t⟩, hx⟩ := Upper.interposeDentry_returns h.good hli hh o
  refine ⟨ret, t, ?_, Upper.interposed h.good.toOk hx⟩
  simp [interpose, Upper.interpose, hx, Except.ok_bind, Except.pure_eq_ok]

/-- A lower call that has made a name leaves a lower dentry with an inode. -/
def MakesInode (s : Layers) (u : DentryId) (call : LowerCall) : Prop :=
  call.err = 0 → ∀ p, (s.up.dentry u).fsdata = some (some p) → (call.fs.dInode p.dentry).isSome

lemma makeEntry_returns (links : Bool) {dir : InodeId} {o : MakeEnv} (h : s.Sound leaked D)
    (hL : s.lower.Keeps D s.up.lowerRefs o.call.fs) (hu : u ∈ s.up.dentries)
    (hp : (s.up.dentry u).fsdata = some (some p)) (hn : (s.up.dentry u).inode = none)
    (hd : s.MakesInode u o.call) (hdir : dir ∈ s.up.inodes) :
    ∃ x, makeEntry links dir u p o s = .ok x := by
  simp only [makeEntry]
  split_ifs with he
  · exact ⟨_, rfl⟩
  · obtain ⟨li, hli⟩ := Option.isSome_iff_exists.mp (hd (not_not.mp he) p hp)
    obtain ⟨ret, t, hi, hint⟩ :=
      interpose_returns (h.call hL) hli hu hn o.interpose
    rw [hi, Except.ok_bind]
    simp only
    split_ifs with hr
    · exact ⟨_, rfl⟩
    · obtain ⟨lj, hlj⟩ := Option.isSome_iff_exists.mp (h.good.lower hdir)
      rw [← hint.inode_eq hdir] at hlj
      cases links <;> simp [copyDir, hlj, copyAttr_some, Except.ok_bind, Except.pure_eq_ok]

lemma link_returns {old new : DentryId} {o : MakeEnv} {i : InodeId} (h : s.Sound leaked D)
    (hL : s.lower.Keeps D s.up.lowerRefs o.call.fs) (hu : new ∈ s.up.dentries)
    (hn : (s.up.dentry new).inode = none) (hold : old ∈ s.up.dentries)
    (hi : (s.up.dentry old).inode = some i) : ∃ x, link old new p o s = .ok x := by
  simp only [link]
  split_ifs with he
  · exact ⟨_, rfl⟩
  · obtain ⟨-, hsome⟩ := not_or.mp he
    obtain ⟨li, hli⟩ := Option.ne_none_iff_exists'.mp hsome
    obtain ⟨ret, t, hint, hint'⟩ :=
      interpose_returns (h.call hL) hli hu hn o.interpose
    rw [hint, Except.ok_bind]
    simp only
    split_ifs with hr
    · exact ⟨_, rfl⟩
    · have hne : old ≠ new := by
        rintro rfl
        simp [hn] at hi
      obtain ⟨q, lj, -, -, hlj, -, hmem⟩ := h.positive hold hi
      have hti : (t.dentry old).inode = some i := by rw [hint'.link hne, hi]
      have htl : (t.inode i).lower = some lj := by rw [hint'.inode_eq hmem, hlj]
      simp [lowerInodeOf, hti, htl, copyAttr_some, Except.ok_bind, Except.pure_eq_ok]

lemma unlink_returns {dir i : InodeId} {o : RemoveEnv} (h : s.Sound leaked D)
    (hL : s.lower.Keeps D s.up.lowerRefs o.call.fs) (hu : u ∈ s.up.dentries)
    (hp : (s.up.dentry u).fsdata = some (some p)) (hi : (s.up.dentry u).inode = some i)
    (hdir : dir ∈ s.up.inodes) : ∃ x, unlink dir u p o s = .ok x := by
  obtain ⟨lj, hlj⟩ := Option.isSome_iff_exists.mp (h.good.lower hdir)
  obtain ⟨q, li, hq, hD, hli, hd, -⟩ := h.positive hu hi
  obtain rfl : q = p := by simpa [hp] using hq.symm
  have hd' : o.call.fs.dInode q.dentry = some li := hL.dInode hD hd
  by_cases he : o.err = 0
  · simp [unlink, hlj, he, lowerInodeOf, hi, hli, copyAttr_some, setNlink, hd', Except.ok_bind,
      Except.pure_eq_ok]
  · simp [unlink, hlj, he]

lemma rmdir_returns (dir : InodeId) {call : LowerCall} {parent : LowerDentry} {li : LowerInodeId}
    (hd : call.fs.dInode parent = some li) : ∃ x, rmdir dir u call parent s = .ok x := by
  simp only [rmdir]
  split_ifs with he
  · exact ⟨_, rfl⟩
  · simp [clearNlink_lower, dDrop, hd, copyAttr_some, Except.ok_bind, Except.pure_eq_ok]

lemma rename_returns (oldDir newDir : InodeId) {old new : LowerDentry} {o : RenameEnv}
    (hL : s.lower.Keeps D s.up.lowerRefs o.call.fs) (hold : old ∈ D) (hnew : new ∈ D) :
    ∃ x, rename oldDir newDir old new o s = .ok x := by
  simp only [rename, hL.parent hnew, copyAttr_some, Except.ok_bind]
  split
  · exact ⟨_, rfl⟩
  · split
    · exact ⟨_, rfl⟩
    · split
      · exact ⟨_, rfl⟩
      · split
        · simp [setNlink, hL.parent hold, copyAttr_some, Except.ok_bind, Except.pure_eq_ok]
        · exact ⟨_, rfl⟩

lemma copyAttrFrom_returns (source : AttrSource) {i : InodeId} {L : LowerFs} (h : s.Sound leaked D)
    (hL : s.lower.Keeps D s.up.lowerRefs L) (hu : u ∈ s.up.dentries)
    (hp : (s.up.dentry u).fsdata = some (some p)) (hi : (s.up.dentry u).inode = some i) :
    ∃ x, copyAttrFrom { s with lower := L } u p source = .ok x := by
  obtain ⟨q, li, hq, hD, hli, hd, -⟩ := h.positive hu hi
  obtain rfl : q = p := by simpa [hp] using hq.symm
  cases source with
  | none => exact ⟨_, rfl⟩
  | dentry => exact ⟨_, by rw [copyAttrFrom, hi, hL.dInode hD hd]; rfl⟩
  | inode => exact ⟨_, by rw [copyAttrFrom, lowerInodeOf, hi, Option.bind_some, hli]; rfl⟩

lemma pathCall_returns (unsupported : ℤ) (source : AttrSource) {o : PathEnv} {i : InodeId}
    (h : s.Sound leaked D) (hL : s.lower.Keeps D s.up.lowerRefs o.call.fs) (hu : u ∈ s.up.dentries)
    (hp : (s.up.dentry u).fsdata = some (some p)) (hi : (s.up.dentry u).inode = some i) :
    ∃ x, pathCall unsupported source u o p s = .ok x := by
  obtain ⟨l, hl⟩ := copyAttrFrom_returns source h hL hu hp hi
  simp only [pathCall]
  split_ifs with hs he
  · exact ⟨_, rfl⟩
  · exact ⟨_, rfl⟩
  · simp [hl, Except.ok_bind, Except.pure_eq_ok]

end Layers

/-! ### Calls -/

namespace Wrapfs

variable {s s' : Wrapfs} {u : DentryId} {p : LowerPath}

/-- The ledger is right, and the two levels agree. -/
structure Sound (leaked : Multiset LowerInodeId) (s : Wrapfs) : Prop extends s.Ledger 0 leaked where
  coherent : s.toLayers.Coherent

/-- What a call leaves of the lower file system. -/
def Kept (s : Wrapfs) (L : LowerFs) : Prop := s.lower.Keeps s.pins.dentries s.up.lowerRefs L

lemma withLowerPath_returns {α : Type} {body : LowerPath → Wrapfs → Except Halt (α × Wrapfs)}
    {r : α} {t : Wrapfs} {pins : Pins} (hf : (s.up.dentry u).fsdata = some (some p))
    (hb : body p { s with pins := s.pins.pathGet p } = .ok (r, t))
    (ht : t.pins.pathPut p = .ok pins) : s.withLowerPath u body = .ok (r, ⟨t.toLayers, pins⟩) := by
  simp [withLowerPath, getLowerPath, hf, hb, putLowerPath, ht, Except.ok_bind, Except.pure_eq_ok]

lemma withParent_returns {d : LowerDentry} {b : LowerDentry → Layers → Except Halt (ℤ × Layers)}
    {l : Layers} (hl : s.pins.locks = 0)
    (hb : b (s.lower.dParent d) s.toLayers = .ok (err, l))
    (hi : l.lower.dInode (s.lower.dParent d) = some (s.lower.parentInode d)) :
    s.withParent d b = .ok (err, ⟨l, s.pins⟩) := by
  simp [withParent, Pins.lockParent_of_locks hl, hb, Pins.unlockDir_lockParent hl hi,
    Except.ok_bind, Except.pure_eq_ok]

namespace Sound

lemma layers (h : s.Sound leaked) : s.toLayers.Sound leaked s.pins.dentries := by
  refine ⟨h.good, h.coherent, fun hp => ?_⟩
  rw [h.pins, zero_add]
  exact Multiset.mem_map_of_mem _ hp

lemma mem_pins (h : s.Sound leaked) (hu : u ∈ s.up.dentries)
    (hp : (s.up.dentry u).fsdata = some (some p)) : p.dentry ∈ s.pins.dentries :=
  h.layers.paths (Upper.mem_paths hu hp)

/-- A call that has left the references and locks as they were. -/
lemma of_layers (h : s.Sound leaked) (hp : s'.pins = s.pins)
    (hk : Upper.Keeps leaked s.up s'.up) (hl : s'.toLayers.Sound leaked s.pins.dentries) :
    s'.Sound leaked :=
  ⟨h.toLedger.keeps hk hp, hl.coherent⟩

lemma dir_mem (h : s.Sound leaked) {dir : InodeId} (hu : u ∈ s.up.dentries)
    (hd : (s.up.dentry (s.up.dentry u).parent).inode = some dir) : dir ∈ s.up.inodes :=
  h.good.toOk.mem_inodes (h.coherent.parent hu) hd

lemma makeEntry {links : Bool} {dir : InodeId} {o : MakeEnv} (h : s.Sound leaked)
    (hi : s.IsNew dir u o.interpose) (hL : s.Kept o.call.fs)
    (hd : s.toLayers.MakesInode u o.call) :
    ∃ err s', s.makeEntry links dir u o = .ok (err, s') ∧ s'.Sound leaked := by
  obtain ⟨p, hp⟩ := h.coherent.path hi.mem
  have ho : ∀ a, o.interpose.splice = .other a →
      a ∈ s.up.dentries ∧ (s.up.dentry a).inode.isSome := fun a ha =>
    ⟨(hi.other ha).1.mem, (hi.other ha).1.positive⟩
  obtain ⟨⟨err, l⟩, hl⟩ := Layers.makeEntry_returns links h.layers hL hi.mem hp
    hi.negative hd (h.dir_mem hi.mem hi.parent)
  have hm := Layers.of_makeEntry h.good.toOk hl
  have hw := withParent_returns (s := { s with pins := s.pins.pathGet p }) (d := p.dentry)
    (b := fun _ => Layers.makeEntry links dir u p o) h.locks hl
    (by rw [hm.lower_eq]; exact hL.parent (h.mem_pins hi.mem hp))
  refine ⟨err, _, withLowerPath_returns hp hw (Pins.pathPut_pathGet _ _), ?_⟩
  exact h.of_layers rfl (hm.keeps h.good hi.mem hi.negative fun a ha => (ho a ha).2)
    (hm.sound h.layers hL hi.mem hp hi.negative ho)

lemma link {old new : DentryId} {dir : InodeId} {o : MakeEnv} (h : s.Sound leaked)
    (hold : s.IsFile old) (hi : s.IsNew dir new o.interpose) (hL : s.Kept o.call.fs) :
    ∃ err s', s.link old new o = .ok (err, s') ∧ s'.Sound leaked := by
  obtain ⟨p, hp⟩ := h.coherent.path hi.mem
  obtain ⟨q, hq⟩ := h.coherent.path hold.mem
  obtain ⟨i, hin⟩ := Option.isSome_iff_exists.mp hold.positive
  have ho : ∀ a, o.interpose.splice = .other a →
      a ∈ s.up.dentries ∧ (s.up.dentry a).inode.isSome := fun a ha =>
    ⟨(hi.other ha).1.mem, (hi.other ha).1.positive⟩
  obtain ⟨⟨err, l⟩, hl⟩ := Layers.link_returns (p := p) h.layers hL hi.mem hi.negative hold.mem hin
  have hm := Layers.of_link h.good.toOk hl
  have hw := withParent_returns (s := { s with pins := (s.pins.pathGet q).pathGet p })
    (d := p.dentry) (b := fun _ => Layers.link old new p o) h.locks hl
    (by rw [hm.lower_eq]; exact hL.parent (h.mem_pins hi.mem hp))
  refine ⟨err, ⟨l, s.pins⟩, ?_, ?_⟩
  · simp [Wrapfs.link, getLowerPath, hp, hq, hw, putLowerPath, Pins.pathPut_pathGet_pathGet,
      Pins.pathPut_pathGet, Except.ok_bind, Except.pure_eq_ok]
  · exact h.of_layers rfl (hm.keeps h.good hi.mem hi.negative fun a ha => (ho a ha).2)
      (hm.sound h.layers hL hi.mem hp hi.negative ho)

/-- After a call that drops the dentry from the cache when it succeeds. -/
lemma vfsRemove (h : s.Sound leaked) (sole : Bool) (hu : u ∈ s.up.dentries)
    (hh : err = 0 → (s.up.dentry u).hashed = false) :
    ∃ s', Wrapfs.vfsRemove u sole (err, s) = .ok s' ∧ s'.Sound leaked := by
  simp only [Wrapfs.vfsRemove]
  split_ifs with he
  · cases sole with
    | false =>
      exact ⟨_, rfl, h.of_layers rfl (Layers.dDrop_keeps h.good u) (h.layers.dDrop u)⟩
    | true =>
      obtain ⟨up, hup, -, heq, hsub⟩ := h.unlinkInode hu
      have hd : s.dDelete u true = .ok { s with up := up } := by simp [dDelete, hup]
      have hl := h.dDelete hu (hh he) hd
      refine ⟨_, hd, hl, ?_⟩
      have halike : Upper.Alike s.up up := by
        have hdentry : ∀ v, (up.dentry v).fsdata = (s.up.dentry v).fsdata ∧
            (up.dentry v).parent = (s.up.dentry v).parent ∧
            ∀ i, (up.dentry v).inode = some i → (s.up.dentry v).inode = some i := by
          intro v
          rw [heq]
          by_cases hv : v = u
          · subst hv
            simp
          · simp [hv]
        exact
          { dentries := by rw [heq]
            fsdata := fun _ => (hdentry _).1
            link := fun _ hi => (hdentry _).2.2 _ hi
            parent := fun hp hv => (hdentry _).2.1 ▸ hp _ hv
            inodes := hsub
            inode := fun _ => by rw [heq] }
      have hpaths : up.paths = s.up.paths := by
        rw [heq]
        exact Upper.paths_modifyDentry (f := fun d => { d with inode := none }) rfl
      have hs : Layers.Sound leaked s.pins.dentries ⟨s.lower, up⟩ :=
        h.layers.alike ⟨hl.good, hpaths, halike.dentries⟩ halike (.refl _ _ _)
      exact hs.coherent
  · exact ⟨s, rfl, h⟩

lemma unlink {dir : InodeId} {o : RemoveEnv} (h : s.Sound leaked) (hi : s.IsEntry dir u)
    (hL : s.Kept o.call.fs) : ∃ err s', s.unlink dir u o = .ok (err, s') ∧ s'.Sound leaked ∧
      s'.up.dentries = s.up.dentries ∧ (err = 0 → (s'.up.dentry u).hashed = false) := by
  obtain ⟨p, hp⟩ := h.coherent.path hi.mem
  obtain ⟨i, hin⟩ := Option.isSome_iff_exists.mp hi.positive
  obtain ⟨⟨err, l⟩, hl⟩ := Layers.unlink_returns h.layers hL hi.mem hp hin
    (h.dir_mem hi.mem hi.parent)
  have hm := Layers.of_unlink hl
  have hw := withParent_returns (s := { s with pins := (s.pins.pathGet p).dget p.dentry })
    (d := p.dentry) (b := fun _ => Layers.unlink dir u p o) h.locks hl
    (by rw [hm.lower_eq]; exact hL.parent (h.mem_pins hi.mem hp))
  have hk := hm.keeps h.good
  refine ⟨err, ⟨l, s.pins⟩, ?_, h.of_layers rfl hk (hm.sound h.layers hL), hk.dentries, hm.hashed⟩
  refine withLowerPath_returns hp (t := ⟨l, s.pins.pathGet p⟩) ?_
    (Pins.pathPut_pathGet _ _)
  simp [hw, Pins.dput_dget, Except.ok_bind, Except.pure_eq_ok]

lemma rmdir {dir : InodeId} {call : LowerCall} (h : s.Sound leaked) (hi : s.IsEntry dir u)
    (hL : s.Kept call.fs) : ∃ err s', s.rmdir dir u call = .ok (err, s') ∧ s'.Sound leaked ∧
      s'.up.dentries = s.up.dentries ∧ (err = 0 → (s'.up.dentry u).hashed = false) := by
  obtain ⟨p, hp⟩ := h.coherent.path hi.mem
  have hparent := hL.parent (h.mem_pins hi.mem hp)
  obtain ⟨⟨err, l⟩, hl⟩ := Layers.rmdir_returns (s := s.toLayers) (u := u) dir hparent
  have hm := Layers.of_rmdir hl
  have hw := withParent_returns (s := { s with pins := s.pins.pathGet p })
    (d := p.dentry) (b := Layers.rmdir dir u call) h.locks hl
    (by rw [hm.lower_eq]; exact hparent)
  have hk := hm.keeps h.good
  exact ⟨err, _, withLowerPath_returns hp hw (Pins.pathPut_pathGet _ _),
    h.of_layers rfl hk (hm.sound h.layers hL), hk.dentries, hm.hashed⟩

lemma pathCall (h : s.Sound leaked) (unsupported : ℤ) (source : AttrSource) {o : PathEnv}
    (hi : s.IsFile u) (hL : s.Kept o.call.fs) :
    ∃ err s', s.pathCall unsupported source u o = .ok (err, s') ∧ s'.Sound leaked := by
  obtain ⟨p, hp⟩ := h.coherent.path hi.mem
  obtain ⟨i, hin⟩ := Option.isSome_iff_exists.mp hi.positive
  obtain ⟨⟨err, l⟩, hl⟩ := Layers.pathCall_returns unsupported source h.layers
    hL hi.mem hp hin
  have hm := Layers.of_pathCall hl
  refine ⟨err, ⟨l, s.pins⟩, ?_, h.of_layers rfl (hm.keeps h.good) (hm.sound h.layers hL)⟩
  refine withLowerPath_returns hp (t := ⟨l, s.pins.pathGet p⟩) ?_
    (Pins.pathPut_pathGet _ _)
  simp [hl, Except.ok_bind, Except.pure_eq_ok]

lemma rename (h : s.Sound leaked) (oldDir newDir : InodeId) {old new : DentryId} {o : RenameEnv}
    (hold : old ∈ s.up.dentries) (hnew : new ∈ s.up.dentries) (hL : s.Kept o.call.fs) :
    ∃ err s', s.rename oldDir old newDir new o = .ok (err, s') ∧ s'.Sound leaked ∧
      s'.up.dentries = s.up.dentries ∧ s'.up.dentry = s.up.dentry := by
  by_cases hflags : o.flags = true
  · exact ⟨-einval, s, by simp [Wrapfs.rename, hflags], h, rfl, rfl⟩
  obtain ⟨p, hp⟩ := h.coherent.path hold
  obtain ⟨q, hq⟩ := h.coherent.path hnew
  have hpm := h.mem_pins hold hp
  have hqm := h.mem_pins hnew hq
  obtain ⟨⟨err, l⟩, hl⟩ := Layers.rename_returns (s := s.toLayers) (o := o) oldDir newDir
    hL hpm hqm
  have hm := Layers.of_rename hl
  have hk := hm.keeps h.good
  have hfs : l.lower = o.call.fs ∨ l.lower = s.lower := by
    cases hm with
    | trapped _ => exact Or.inr rfl
    | refused _ => exact Or.inl rfl
    | within _ _ _ => exact Or.inl rfl
    | across _ _ _ _ => exact Or.inl rfl
  have hparent : ∀ {d}, d ∈ s.pins.dentries →
      l.lower.dInode (s.lower.dParent d) = some (s.lower.parentInode d) := by
    intro d hd
    rcases hfs with hfs | hfs
    · rw [hfs]
      exact hL.parent hd
    · rw [hfs]
      exact s.lower.dInode_dParent d
  have hlocks : (((s.pins.pathGet p).pathGet q).dget (s.lower.dParent p.dentry) |>.dget
      (s.lower.dParent q.dentry)).locks = 0 := h.locks
  refine ⟨err, ⟨l, s.pins⟩, ?_, h.of_layers rfl hk (hm.sound h.layers hL), hk.dentries,
    hm.dentry_eq⟩
  simp only [Wrapfs.rename, hflags, getLowerPath, hp, hq, Except.ok_bind, Except.pure_eq_ok,
    Bool.false_eq_true, if_false]
  rw [Pins.lockRename_of_locks hlocks]
  simp only [Except.ok_bind, hl]
  rw [Pins.unlockRename_of_locks hlocks (hparent hpm) (hparent hqm)]
  simp [Pins.dput_dget_dget, Pins.dput_dget, putLowerPath, Pins.pathPut_pathGet_pathGet,
    Pins.pathPut_pathGet, Except.ok_bind, Except.pure_eq_ok]

lemma setattr {o : SetattrCall} (h : s.Sound leaked) (hi : s.IsFile u) (hL : s.Kept o.call.fs) :
    ∃ err s', s.setattr u o = .ok (err, s') ∧ s'.Sound leaked := by
  by_cases hprep : o.prepare = 0
  swap
  · exact ⟨o.prepare, s, by simp [Wrapfs.setattr, hprep], h⟩
  obtain ⟨i, hin⟩ := Option.isSome_iff_exists.mp hi.positive
  obtain ⟨p, li, hp, hD, -, hd, -⟩ := h.layers.positive hi.mem hin
  -- what the call does between getting and putting the path
  obtain ⟨err, l, hl, hm⟩ : ∃ err l, (if o.newsizeOk ≠ 0 then
        .ok (o.newsizeOk, { s with pins := s.pins.pathGet p })
      else do
        let t ← Wrapfs.notifyChange { s with pins := s.pins.pathGet p } p.dentry o.call
        if o.call.err ≠ 0 then pure (o.call.err, t)
        else do
          let l ← t.toLayers.copyAttrFrom u p .inode
          pure (0, ⟨l, t.pins⟩)) = .ok (err, (⟨l, s.pins.pathGet p⟩ : Wrapfs)) ∧
      Layers.HandedOn u p o.call s.toLayers l := by
    by_cases hsize : o.newsizeOk = 0
    swap
    · exact ⟨o.newsizeOk, s.toLayers, by simp [hsize], .unsupported⟩
    have hn : Wrapfs.notifyChange { s with pins := s.pins.pathGet p } p.dentry o.call =
        .ok { s with lower := o.call.fs, pins := s.pins.pathGet p } := by
      have hlocks : (s.pins.pathGet p).locks = 0 := h.locks
      simp [Wrapfs.notifyChange, hd, hL.dInode hD hd, Pins.inodeLock, Pins.inodeUnlock, hlocks,
        Except.ok_bind, Except.pure_eq_ok]
      simp [← hlocks]
    simp only [hsize, hn, Except.ok_bind, ne_eq, not_true_eq_false, if_false]
    by_cases he : o.call.err = 0
    · obtain ⟨l, hl⟩ := Layers.copyAttrFrom_returns .inode h.layers hL hi.mem hp hin
      refine ⟨0, l, ?_, Layers.of_copyAttrFrom hl⟩
      simp [he, hl, Except.ok_bind, Except.pure_eq_ok]
    · exact ⟨o.call.err, { s.toLayers with lower := o.call.fs }, by simp [he, Except.pure_eq_ok],
        .called⟩
  refine ⟨err, ⟨l, s.pins⟩, ?_, h.of_layers rfl (hm.keeps h.good) (hm.sound h.layers hL)⟩
  simp only [Wrapfs.setattr, hprep, ne_eq, not_true_eq_false, if_false]
  exact withLowerPath_returns hp (t := ⟨l, s.pins.pathGet p⟩) hl
    (Pins.pathPut_pathGet _ _)

end Sound

end Wrapfs

end FastMap
