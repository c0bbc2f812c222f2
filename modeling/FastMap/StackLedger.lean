import FastMap.StackEffects

/-!
# The ledger of the stacked file system

What the driver holds below is what its upper objects account for: one lower path for every dentry
that has one and for every open file, one lower inode for every upper inode, and no lock. Every
request of the VFS keeps that, whatever the kernel and the lower file system answer.
-/

namespace FastMap

variable {leaked : Multiset LowerInodeId} {more : Multiset LowerPath} {err : ℤ}

/-- A reference to the dentry and one to the mount of every path, and no lock. -/
def Pins.of (P : Multiset LowerPath) : Pins := ⟨P.map LowerPath.dentry, P.map LowerPath.mnt, 0⟩

lemma Pins.pathGet_of (P : Multiset LowerPath) (p : LowerPath) :
    (Pins.of P).pathGet p = .of (p ::ₘ P) := by
  simp [Pins.of, pathGet, dget, mntget]

lemma Pins.pathPut_of (P : Multiset LowerPath) (p : LowerPath) :
    (Pins.of (p ::ₘ P)).pathPut p = .ok (.of P) := by
  rw [← pathGet_of, pathPut_pathGet]

/-- What holds of a dentry between two requests: it has the operations of the driver if it has its
data, and is in the cache only if it has an inode. -/
structure Dentry.Formed (d : Dentry) : Prop where
  ops : d.dOp = d.fsdata.isSome
  hashed : d.hashed = true → d.inode.isSome

namespace Upper

/-- The lower paths that the dentries and the open files hold. -/
def paths (s : Upper) : Multiset LowerPath :=
  holdings s.dentries (fun u => (s.dentry u).fsdata.join) +
    holdings s.files (fun f => some (s.filePath f))

/-- The upper objects between two requests. The super block holds the one below. -/
structure Good (leaked : Multiset LowerInodeId) (s : Upper) : Prop extends s.Ok 0 leaked where
  formed {u : DentryId} : u ∈ s.dentries → (s.dentry u).Formed
  super : ∃ sb, s.sbInfo = some (some sb) ∧ s.superRefs = {sb}

/-- From one state to another no dentry comes or goes, and no lower path is taken or dropped. -/
structure Keeps (leaked : Multiset LowerInodeId) (s s' : Upper) : Prop where
  good : s'.Good leaked
  paths : s'.paths = s.paths
  dentries : s'.dentries = s.dentries

variable {s t s' : Upper} {u a : DentryId} {i : InodeId} {p : LowerPath} {f : Dentry → Dentry}

lemma Keeps.refl (h : s.Good leaked) : Keeps leaked s s := ⟨h, rfl, rfl⟩

lemma Keeps.trans (h : Keeps leaked s t) (h' : Keeps leaked t s') : Keeps leaked s s' :=
  ⟨h'.good, h'.paths.trans h.paths, h'.dentries.trans h.dentries⟩

/-! ### Paths -/

lemma paths_modifyDentry (hf : (f (s.dentry u)).fsdata.join = (s.dentry u).fsdata.join) :
    (s.modifyDentry u f).paths = s.paths := by
  show holdings s.dentries _ + holdings s.files _ = _
  rw [paths]
  congr 1
  refine holdings_congr fun v _ => ?_
  by_cases hv : v = u
  · subst hv
    simp [modifyDentry, hf]
  · simp [modifyDentry, hv]

/-- A dentry that comes to hold another path changes the paths by the two. -/
lemma paths_update (hu : u ∈ s.dentries) :
    (s.modifyDentry u f).paths + held (s.dentry u).fsdata.join =
      s.paths + held (f (s.dentry u)).fsdata.join := by
  have hup := holdings_update (g := fun v => ((s.modifyDentry u f).dentry v).fsdata.join)
    (f := fun v => (s.dentry v).fsdata.join) hu (fun v _ hv => by simp [modifyDentry, hv])
  have hself : (s.modifyDentry u f).dentry u = f (s.dentry u) := Function.update_self _ _ _
  rw [hself] at hup
  have hfiles : holdings (s.modifyDentry u f).files
      (fun g => some ((s.modifyDentry u f).filePath g)) =
      holdings s.files (fun g => some (s.filePath g)) := rfl
  have hdentries : (s.modifyDentry u f).dentries = s.dentries := rfl
  rw [paths, paths, hfiles, add_right_comm, hdentries, hup, add_right_comm]

lemma paths_setPath (hu : u ∈ s.dentries) (hn : (s.dentry u).fsdata.join = none)
    (hf : (f (s.dentry u)).fsdata = some (some p)) :
    (s.modifyDentry u f).paths = p ::ₘ s.paths := by
  have h := paths_update (f := f) hu
  rw [hn, hf, held_none, add_zero] at h
  rw [h, add_comm]
  rfl

lemma paths_resetPath (hu : u ∈ s.dentries) (hp : (s.dentry u).fsdata = some (some p))
    (hf : (f (s.dentry u)).fsdata.join = none) :
    s.paths = p ::ₘ (s.modifyDentry u f).paths := by
  have h := paths_update (f := f) hu
  rw [hp, hf, held_none, add_zero] at h
  rw [← h, add_comm]
  rfl

lemma paths_erase (hu : u ∈ s.dentries) (hn : (s.dentry u).fsdata.join = none) :
    { s with dentries := s.dentries.erase u }.paths = s.paths := by
  rw [paths, paths, ← holdings_erase (f := fun v => (s.dentry v).fsdata.join) hu, hn, held_none,
    zero_add]

lemma paths_insert {d : Dentry} (hd : d.fsdata.join = none) :
    { s with
      dentries := insert s.freshDentry s.dentries
      dentry := Function.update s.dentry s.freshDentry d }.paths = s.paths := by
  have hne : ∀ v ∈ s.dentries, v ≠ s.freshDentry := fun v hv e => s.freshDentry_notMem (e ▸ hv)
  rw [paths, paths]
  congr 1
  rw [holdings_insert_congr s.freshDentry_notMem (f := fun v => (s.dentry v).fsdata.join)
    fun v hv => by simp [hne v hv]]
  simp [hd]

/-! ### Small changes -/

lemma formed_modifyDentry (h : ∀ v ∈ s.dentries, (s.dentry v).Formed)
    (hf : u ∈ s.dentries → (f (s.dentry u)).Formed) {v : DentryId} (hv : v ∈ s.dentries) :
    ((s.modifyDentry u f).dentry v).Formed := by
  by_cases hvu : v = u
  · subst hvu
    simpa [modifyDentry] using hf hv
  · simpa [modifyDentry, hvu] using h v hv

/-- A dentry without an inode may go. -/
lemma Ok.eraseDentry {hand : Multiset InodeId} (h : s.Ok hand leaked) (hu : u ∈ s.dentries)
    (hn : (s.dentry u).inode = none) :
    { s with dentries := s.dentries.erase u }.Ok hand leaked where
  inodeRefs := by
    rw [h.inodeRefs, ← holdings_erase (f := fun v => (s.dentry v).inode) hu, hn, held_none,
      zero_add]
  lowerRefs := h.lowerRefs
  live := h.live
  lower := h.lower
  unique := h.unique

/-- A new dentry takes over the references in the hands of the call that it holds. -/
lemma Ok.addDentry {hand : Multiset InodeId} {d : Dentry} (h : s.Ok (held d.inode + hand) leaked) :
    { s with
      dentries := insert s.freshDentry s.dentries
      dentry := Function.update s.dentry s.freshDentry d }.Ok hand leaked where
  inodeRefs := by
    have hne : ∀ v ∈ s.dentries, v ≠ s.freshDentry := fun v hv e => s.freshDentry_notMem (e ▸ hv)
    rw [holdings_insert_congr s.freshDentry_notMem (f := fun v => (s.dentry v).inode)
      fun v hv => by simp [hne v hv], h.inodeRefs]
    simp only [Function.update_self]
    ac_rfl
  lowerRefs := h.lowerRefs
  live := h.live
  lower := h.lower
  unique := h.unique

namespace Good

lemma modifyInode (h : s.Good leaked) (i : InodeId) (g : Inode → Inode)
    (hg : (g (s.inode i)).lower = (s.inode i).lower) : Keeps leaked s (s.modifyInode i g) :=
  ⟨⟨h.toOk.modifyInode hg, h.formed, h.super⟩, rfl, rfl⟩

lemma setDentry (h : s.Good leaked) (u : DentryId) (f : Dentry → Dentry)
    (hi : (f (s.dentry u)).inode = (s.dentry u).inode)
    (hf : u ∈ s.dentries → (f (s.dentry u)).Formed) : (s.modifyDentry u f).Good leaked :=
  ⟨h.toOk.modifyDentry hi, formed_modifyDentry (fun _ => h.formed) hf, h.super⟩

lemma modifyDentry (h : s.Good leaked) (u : DentryId) (f : Dentry → Dentry)
    (hi : (f (s.dentry u)).inode = (s.dentry u).inode)
    (hp : (f (s.dentry u)).fsdata.join = (s.dentry u).fsdata.join)
    (hf : u ∈ s.dentries → (f (s.dentry u)).Formed) : Keeps leaked s (s.modifyDentry u f) :=
  ⟨h.setDentry u f hi hf, paths_modifyDentry hp, rfl⟩

lemma agrees (h : s.Good leaked) (ha : Agrees s t) : Keeps leaked s t := by
  have hok := h.toOk.agrees ha
  obtain ⟨he, hi⟩ := ha
  rw [he] at hok ⊢
  exact ⟨⟨hok, h.formed, h.super⟩, rfl, rfl⟩

lemma dMove (h : s.Good leaked) (ha : (s.dentry a).inode.isSome) :
    Keeps leaked s (s.dMove a u) := by
  have hu : Keeps leaked s (s.modifyDentry u fun d =>
      { d with
        parent := if (s.dentry a).parent = a then u else (s.dentry a).parent
        hashed := false }) :=
    h.modifyDentry u _ rfl rfl fun hu => ⟨(h.formed hu).ops, nofun⟩
  refine hu.trans (hu.good.modifyDentry a
    (fun d => { d with parent := (s.dentry u).parent, hashed := true }) rfl rfl
    fun hm => ⟨(hu.good.formed hm).ops, fun _ => ?_⟩)
  by_cases hau : a = u
  · subst hau
    simpa [Upper.modifyDentry] using ha
  · simpa [Upper.modifyDentry, hau] using ha

/-- `__wrapfs_interpose` on a negative dentry. -/
lemma interposed {L : LowerFs} {o : InterposeEnv} {ret : DentryRet} (h : s.Good leaked)
    (hu : u ∈ s.dentries) (hn : (s.dentry u).inode = none)
    (ho : ∀ a, o.splice = .other a → (s.dentry a).inode.isSome)
    (hi : Interposed s L u p o ret s') : Keeps leaked s s' := by
  cases hi with
  | err ha => exact h.agrees ha
  | other ha hag =>
    have hk := h.agrees hag
    refine hk.trans (hk.good.dMove ?_)
    rw [hag.eq]
    exact ho _ ha
  | @add li j t hl hg hh =>
    have hd : ∀ v ∈ t.dentries, (t.dentry v).Formed := by
      rw [hg.dentry_eq, hg.dentries_eq]
      exact fun v hv => h.formed hv
    refine ⟨⟨(h.toOk.gets hg).attach ?_ ?_ rfl, ?_, ?_⟩, ?_, ?_⟩
    · rwa [hg.dentries_eq]
    · rwa [hg.dentry_eq]
    · exact formed_modifyDentry hd fun hu => ⟨(hd _ hu).ops, fun _ => rfl⟩
    · cases hg <;> exact h.super
    · rw [paths_modifyDentry rfl]
      cases hg <;> rfl
    · exact hg.dentries_eq

end Good

end Upper

/-! ### Work on the two file systems -/

namespace Layers

variable {s s' : Layers} {u : DentryId} {p : LowerPath}

lemma setNlink_keeps (h : s.up.Good leaked) (i : InodeId) (li : LowerInodeId) :
    Upper.Keeps leaked s.up (s.setNlink i li).up :=
  h.modifyInode i (fun x => { x with nlink := s.lower.iNlink li }) rfl

lemma dDrop_keeps (h : s.up.Good leaked) (u : DentryId) : Upper.Keeps leaked s.up (s.dDrop u).up :=
  h.modifyDentry u (fun d => { d with hashed := false }) rfl rfl
    fun hu => ⟨(h.formed hu).ops, nofun⟩

lemma clearNlink_keeps (h : s.up.Good leaked) (i : Option InodeId) :
    Upper.Keeps leaked s.up (s.clearNlink i).up := by
  cases i with
  | none => exact .refl h
  | some i => exact h.modifyInode i (fun x => { x with nlink := 0 }) rfl

lemma Made.keeps {links : Bool} {dir : InodeId} {o : MakeEnv} (hm : Made links dir u p o s err s')
    (h : s.up.Good leaked) (hu : u ∈ s.up.dentries) (hn : (s.up.dentry u).inode = none)
    (ho : ∀ a, o.interpose.splice = .other a → (s.up.dentry a).inode.isSome) :
    Upper.Keeps leaked s.up s'.up := by
  cases hm with
  | refused _ => exact .refl h
  | failed _ hi _ => exact h.interposed hu hn ho hi
  | @made ret t li _ hi _ _ =>
    have hk := h.interposed hu hn ho hi
    cases links with
    | false => exact hk
    | true => exact hk.trans (setNlink_keeps (s := ⟨o.call.fs, t⟩) hk.good dir li)

lemma Linked.keeps {old new : DentryId} {o : MakeEnv} (hm : Linked old new p o s err s')
    (h : s.up.Good leaked) (hu : new ∈ s.up.dentries) (hn : (s.up.dentry new).inode = none)
    (ho : ∀ a, o.interpose.splice = .other a → (s.up.dentry a).inode.isSome) :
    Upper.Keeps leaked s.up s'.up := by
  cases hm with
  | refused _ => exact .refl h
  | failed _ hi _ => exact h.interposed hu hn ho hi
  | @linked ret t i li _ hi _ _ _ =>
    have hk := h.interposed hu hn ho hi
    exact hk.trans (setNlink_keeps (s := ⟨o.call.fs, t⟩) hk.good i li)

lemma Unlinked.keeps {dir : InodeId} {o : RemoveEnv} (hm : Unlinked dir u p o s err s')
    (h : s.up.Good leaked) : Upper.Keeps leaked s.up s'.up := by
  cases hm with
  | refused _ => exact .refl h
  | @unlinked i li _ _ _ _ =>
    have hk := setNlink_keeps (s := ⟨o.call.fs, s.up⟩) h i li
    exact hk.trans (dDrop_keeps hk.good u)

/-- A dentry whose name is gone is not in the cache. -/
lemma Unlinked.hashed {dir : InodeId} {o : RemoveEnv} (hm : Unlinked dir u p o s err s')
    (he : err = 0) : (s'.up.dentry u).hashed = false := by
  cases hm with
  | refused hne => exact absurd he hne
  | unlinked => simp [dDrop, Upper.modifyDentry]

lemma Rmdired.keeps {dir : InodeId} {call : LowerCall} {parent : LowerDentry}
    (hm : Rmdired dir u call parent s err s') (h : s.up.Good leaked) :
    Upper.Keeps leaked s.up s'.up := by
  cases hm with
  | refused _ => exact .refl h
  | @removed li _ _ =>
    have hd := dDrop_keeps (s := ⟨call.fs, s.up⟩) h u
    have hc := clearNlink_keeps hd.good (s.up.dentry u).inode
    exact (hd.trans hc).trans (setNlink_keeps hc.good dir li)

lemma Rmdired.hashed {dir : InodeId} {call : LowerCall} {parent : LowerDentry}
    (hm : Rmdired dir u call parent s err s') (he : err = 0) : (s'.up.dentry u).hashed = false := by
  cases hm with
  | refused hne => exact absurd he hne
  | removed =>
    cases (s.up.dentry u).inode <;>
      simp [setNlink, clearNlink, dDrop, Upper.modifyDentry, Upper.modifyInode]

lemma Renamed.dentry_eq {oldDir newDir : InodeId} {old new : LowerDentry} {o : RenameEnv}
    (hm : Renamed oldDir newDir old new o s err s') : s'.up.dentry = s.up.dentry := by
  cases hm <;> rfl

lemma Renamed.keeps {oldDir newDir : InodeId} {old new : LowerDentry} {o : RenameEnv}
    (hm : Renamed oldDir newDir old new o s err s') (h : s.up.Good leaked) :
    Upper.Keeps leaked s.up s'.up := by
  cases hm with
  | trapped _ => exact .refl h
  | refused _ => exact .refl h
  | within _ _ _ => exact setNlink_keeps (s := ⟨o.call.fs, s.up⟩) h _ _
  | @across li lj _ _ _ _ =>
    have hk := setNlink_keeps (s := ⟨o.call.fs, s.up⟩) h newDir li
    exact hk.trans (setNlink_keeps hk.good _ _)

lemma HandedOn.keeps {call : LowerCall} (hm : HandedOn u p call s s') (h : s.up.Good leaked) :
    Upper.Keeps leaked s.up s'.up := by
  cases hm with
  | unsupported => exact .refl h
  | called => exact .refl h
  | copied _ _ => exact setNlink_keeps (s := ⟨call.fs, s.up⟩) h _ _

end Layers

/-! ### The ledger -/

namespace Wrapfs

/-- The driver holds below what its upper objects account for, and `more` paths that a call has in
its hands. -/
structure Ledger (more : Multiset LowerPath) (leaked : Multiset LowerInodeId) (s : Wrapfs) :
    Prop where
  good : s.up.Good leaked
  pins : s.pins = .of (more + s.up.paths)

variable {s s' t : Wrapfs} {u : DentryId} {p : LowerPath}

namespace Ledger

lemma locks (h : s.Ledger more leaked) : s.pins.locks = 0 := by
  rw [h.pins]
  rfl

lemma keeps (h : s.Ledger more leaked) (hk : Upper.Keeps leaked s.up s'.up)
    (hp : s'.pins = s.pins) : s'.Ledger more leaked :=
  ⟨hk.good, by rw [hp, hk.paths, h.pins]⟩

lemma get (h : s.Ledger more leaked) (p : LowerPath) :
    { s with pins := s.pins.pathGet p }.Ledger (p ::ₘ more) leaked :=
  ⟨h.good, by rw [Multiset.cons_add, ← Pins.pathGet_of, h.pins]⟩

lemma put (h : t.Ledger (p ::ₘ more) leaked) (ht : s'.toLayers = t.toLayers)
    (hp : t.pins.pathPut p = .ok s'.pins) : s'.Ledger more leaked := by
  obtain ⟨l, pins⟩ := s'
  obtain rfl : l = t.toLayers := ht
  refine ⟨h.good, ?_⟩
  rw [h.pins, Multiset.cons_add, Pins.pathPut_of] at hp
  exact (Except.ok.inj hp).symm

/-- `unlink` drops the inode of a dentry that is in the cache no more. -/
lemma unlinkInode (h : s.Ledger more leaked) (hu : u ∈ s.up.dentries) :
    ∃ up, s.unlinkInode u = .ok { s with up := up } ∧ up.Ok 0 leaked ∧
      up = { s.up with
        dentry := Function.update s.up.dentry u { s.up.dentry u with inode := none }
        inodes := up.inodes
        inodeRefs := up.inodeRefs
        lowerRefs := up.lowerRefs } ∧ up.inodes ⊆ s.up.inodes := by
  cases hi : (s.up.dentry u).inode with
  | none =>
    refine ⟨s.up, by simp [Wrapfs.unlinkInode, hi], h.good.toOk, ?_, subset_rfl⟩
    have hself : { s.up.dentry u with inode := none } = s.up.dentry u := by rw [← hi]
    rw [hself, Function.update_eq_self]
  | some i =>
    obtain ⟨up, he, hok, heq, hsub⟩ := (h.good.toOk.detach
      (f := fun d => { d with inode := none }) hu hi rfl).iput
    exact ⟨up, by simp [Wrapfs.unlinkInode, hi, he, Except.ok_bind, Except.pure_eq_ok], hok, heq,
      hsub⟩

/-- A dentry that is released gives back its path. -/
lemma release (hp : s.pins = .of (more + s.up.paths)) (hu : u ∈ s.up.dentries)
    (ho : (s.up.dentry u).dOp = (s.up.dentry u).fsdata.isSome) :
    s.release u = .ok ⟨⟨s.lower, s.up.modifyDentry u fun d => { d with fsdata := none }⟩,
        .of (more + (s.up.modifyDentry u fun d => { d with fsdata := none }).paths)⟩ := by
  cases hf : (s.up.dentry u).fsdata with
  | none =>
    have hsame : (s.up.modifyDentry u fun d => { d with fsdata := none }) = s.up := by
      have hself : { s.up.dentry u with fsdata := none } = s.up.dentry u := by rw [← hf]
      simp only [Upper.modifyDentry, hself, Function.update_eq_self]
    simp [Wrapfs.release, ho, hf, hsame, ← hp]
  | some x =>
    cases x with
    | none =>
      have hpaths : (s.up.modifyDentry u fun d => { d with fsdata := none }).paths = s.up.paths :=
        Upper.paths_modifyDentry (by simp [hf])
      simp [Wrapfs.release, ho, hf, Wrapfs.dRelease, putResetLowerPath, hpaths, hp, Except.ok_bind,
        Except.pure_eq_ok]
    | some p =>
      have hpaths : s.up.paths =
          p ::ₘ (s.up.modifyDentry u fun d => { d with fsdata := none }).paths :=
        Upper.paths_resetPath hu hf rfl
      rw [hpaths, Multiset.add_cons] at hp
      simp [Wrapfs.release, ho, hf, Wrapfs.dRelease, putResetLowerPath, putLowerPath, hp,
        Pins.pathPut_of, Except.ok_bind, Except.pure_eq_ok, Upper.modifyDentry]

end Ledger

/-- What is left when a dentry has gone. -/
structure Killed (s : Wrapfs) (u : DentryId) (s' : Wrapfs) : Prop where
  lower : s'.lower = s.lower
  dentries : s'.up.dentries = s.up.dentries.erase u
  dentry {v : DentryId} : v ≠ u → s'.up.dentry v = s.up.dentry v
  inodes : s'.up.inodes ⊆ s.up.inodes
  inode : s'.up.inode = s.up.inode
  files : s'.up.files = s.up.files
  filePath : s'.up.filePath = s.up.filePath
  sbInfo : s'.up.sbInfo = s.up.sbInfo
  superRefs : s'.up.superRefs = s.up.superRefs

namespace Ledger

/-- A dentry that goes gives back its inode and its lower path. -/
lemma kill (h : s.Ledger more leaked) (hu : u ∈ s.up.dentries) :
    ∃ s', s.kill u = .ok s' ∧ s'.Ledger more leaked ∧ Killed s u s' := by
  obtain ⟨up, he, hok, heq, hsub⟩ := h.unlinkInode hu
  have hdentry : up.dentry =
      Function.update s.up.dentry u { s.up.dentry u with inode := none } := by rw [heq]
  have hdentries : up.dentries = s.up.dentries := by rw [heq]
  have hd : up.dentry u = { s.up.dentry u with inode := none } := by simp [hdentry]
  have hpaths : up.paths = s.up.paths := by
    rw [heq]
    exact Upper.paths_modifyDentry (f := fun d => { d with inode := none }) rfl
  have hpins : s.pins = .of (more + up.paths) := by rw [hpaths, h.pins]
  have hrel := release (s := { s with up := up }) (u := u) hpins (hdentries ▸ hu)
    (by simpa [hd] using (h.good.formed hu).ops)
  set up' := up.modifyDentry u fun d => { d with fsdata := none } with hup'
  have hkill : s.kill u = .ok ⟨⟨s.lower, { up' with dentries := up'.dentries.erase u }⟩,
      .of (more + up'.paths)⟩ := by
    simp only [Wrapfs.kill, he, Except.ok_bind, hrel, Except.pure_eq_ok]
  have hu' : u ∈ up'.dentries := hdentries ▸ hu
  have hself : up'.dentry u = { up.dentry u with fsdata := none } := by
    simp [hup', Upper.modifyDentry]
  have hother : ∀ {v}, v ≠ u → up'.dentry v = s.up.dentry v := by
    intro v hv
    simp [hup', Upper.modifyDentry, hdentry, hv]
  have hok' : up'.Ok 0 leaked := hok.modifyDentry rfl
  have hsuper : up'.sbInfo = s.up.sbInfo ∧ up'.superRefs = s.up.superRefs := by
    rw [hup', Upper.modifyDentry, heq]
    exact ⟨rfl, rfl⟩
  refine ⟨_, hkill, ⟨⟨hok'.eraseDentry hu' (by simp [hself, hd]), ?_, ?_⟩, ?_⟩, ?_⟩
  · intro v hv
    obtain ⟨hne, hv⟩ := Finset.mem_erase.mp hv
    rw [hother hne]
    exact h.good.formed (hdentries ▸ hv)
  · simpa [hsuper] using h.good.super
  · rw [Upper.paths_erase hu' (by simp [hself])]
  · exact
      { lower := rfl
        dentries := congrArg (Finset.erase · u) hdentries
        dentry := hother
        inodes := hsub
        inode := by rw [hup', Upper.modifyDentry, heq]
        files := by rw [hup', Upper.modifyDentry, heq]
        filePath := by rw [hup', Upper.modifyDentry, heq]
        sbInfo := hsuper.1
        superRefs := hsuper.2 }

/-! ### Lookups -/

lemma addDentry (h : s.Ledger more leaked) {d : Dentry} (hi : d.inode = none)
    (hp : d.fsdata.join = none) (hf : d.Formed) :
    { s with up := { s.up with
      dentries := insert s.up.freshDentry s.up.dentries
      dentry := Function.update s.up.dentry s.up.freshDentry d } }.Ledger more leaked := by
  refine ⟨⟨Upper.Ok.addDentry ?_, ?_, h.good.super⟩, ?_⟩
  · simpa [hi] using h.good.toOk
  · intro v hv
    by_cases hvu : v = s.up.freshDentry
    · subst hvu
      simpa using hf
    · simpa [hvu] using h.good.formed (Finset.mem_of_mem_insert_of_ne hv hvu)
  · rw [Upper.paths_insert hp, h.pins]

lemma dAlloc (h : s.Ledger more leaked) (parent : DentryId) :
    (s.dAlloc parent).Ledger more leaked :=
  h.addDentry rfl rfl ⟨rfl, nofun⟩

/-- A path that a call hands over to a dentry. -/
lemma takeLowerPath (h : s.Ledger more leaked) (hu : u ∈ s.up.dentries)
    (hf : (s.up.dentry u).fsdata = some none) (p : LowerPath) :
    (s.takeLowerPath u p).Ledger more leaked := by
  have hpaths : (s.takeLowerPath u p).up.paths = p ::ₘ s.up.paths :=
    Upper.paths_setPath hu (by simp [hf]) (by simp [hf])
  refine ⟨h.good.setDentry u (fun d => { d with fsdata := d.fsdata.map fun _ => some p }) rfl
    fun hu => ⟨by simpa using (h.good.formed hu).ops, (h.good.formed hu).hashed⟩, ?_⟩
  · rw [hpaths, Multiset.add_cons, ← Pins.pathGet_of, ← h.pins]
    rfl

/-- A path that a dentry gives back. -/
lemma putResetLowerPath (h : s.Ledger more leaked) (hu : u ∈ s.up.dentries)
    (hs : s.putResetLowerPath u = .ok s') : s'.Ledger more leaked ∧
      s'.up.dentries = s.up.dentries := by
  simp only [Wrapfs.putResetLowerPath] at hs
  split at hs
  next => simp at hs
  next hf =>
    obtain rfl : s = s' := by simpa using hs
    exact ⟨h, rfl⟩
  next p hf =>
    obtain ⟨hl, hp⟩ := of_putLowerPath hs
    have hpaths : s.up.paths =
        p ::ₘ (s.up.modifyDentry u fun d => { d with fsdata := some none }).paths :=
      Upper.paths_resetPath hu hf rfl
    rw [h.pins, hpaths, Multiset.add_cons, Pins.pathPut_of] at hp
    obtain ⟨l, pins⟩ := s'
    obtain rfl : l = _ := hl
    refine ⟨⟨h.good.setDentry u (fun d => { d with fsdata := some none }) rfl fun hu => ?_,
      (Except.ok.inj hp).symm⟩, rfl⟩
    exact ⟨by simpa [hf] using (h.good.formed hu).ops, (h.good.formed hu).hashed⟩

/-- `__wrapfs_lookup` of a new dentry, whatever it finds. -/
lemma lookupDentry {parent : LowerPath} {o : LookupEnv} {ret : DentryRet} (h : s.Ledger more leaked)
    (hu : u ∈ s.up.dentries) (hn : (s.up.dentry u).inode = none)
    (hf : (s.up.dentry u).fsdata = none)
    (ho : ∀ a, o.interpose.splice = .other a → a ≠ u ∧ (s.up.dentry a).inode.isSome)
    (hs : (s.newDentryPrivateData u).lookupDentry u parent o = .ok (ret, s')) :
    s'.Ledger more leaked ∧ s'.up.dentries = s.up.dentries := by
  set s₁ : Wrapfs := { s with up := s.up.modifyDentry u fun d =>
    { d with fsdata := some none, dOp := true } } with hs₁
  have hprep : (s.newDentryPrivateData u).setDOp u = s₁ := by
    simp [newDentryPrivateData, setDOp, Upper.modifyDentry, hs₁]
  have h₁ : s₁.Ledger more leaked := by
    have hk : Upper.Keeps leaked s.up s₁.up := h.good.modifyDentry u
      (fun d => { d with fsdata := some none, dOp := true }) rfl (by simp [hf])
      fun hu => ⟨rfl, (h.good.formed hu).hashed⟩
    exact h.keeps hk rfl
  have hu₁ : u ∈ s₁.up.dentries := hu
  have hf₁ : (s₁.up.dentry u).fsdata = some none := by simp [hs₁, Upper.modifyDentry]
  simp only [Wrapfs.lookupDentry, hprep] at hs
  split_ifs at hs with hz hne
  · obtain ⟨⟨ret', up⟩, hint, hs⟩ := Except.bind_eq_ok.mp hs
    have h₂ := h₁.takeLowerPath hu₁ hf₁ o.found
    set s₂ := s₁.takeLowerPath u o.found with hs₂
    have hk : Upper.Keeps leaked s₂.up up := by
      refine h₂.good.interposed hu ?_ ?_ (Upper.interposed h₂.good.toOk hint)
      · simpa [hs₂, Wrapfs.takeLowerPath, setLowerPath, hs₁, Upper.modifyDentry] using hn
      · intro a ha
        simpa [hs₂, Wrapfs.takeLowerPath, setLowerPath, hs₁, Upper.modifyDentry, (ho a ha).1]
          using (ho a ha).2
    have h₃ : { s₂ with up := up }.Ledger more leaked := h₂.keeps hk rfl
    split at hs
    · obtain ⟨s₄, h₄, hs⟩ := Except.bind_eq_ok.mp hs
      obtain ⟨-, rfl⟩ : _ = ret ∧ s₄ = s' := by simpa [Except.pure_eq_ok] using hs
      obtain ⟨hl, hd⟩ := h₃.putResetLowerPath (hk.dentries ▸ hu) h₄
      exact ⟨hl, hd.trans hk.dentries⟩
    · obtain ⟨-, rfl⟩ : ret' = ret ∧ _ = s' := by simpa [Except.pure_eq_ok] using hs
      exact ⟨h₃, hk.dentries⟩
  · obtain ⟨-, rfl⟩ : _ = ret ∧ _ = s' := by simpa using hs
    exact ⟨h₁, rfl⟩
  · split at hs
    next =>
      obtain ⟨-, rfl⟩ : _ = ret ∧ _ = s' := by simpa using hs
      exact ⟨h₁, rfl⟩
    next d hd =>
      obtain ⟨-, rfl⟩ : _ = ret ∧ _ = s' := by simpa using hs
      exact ⟨h₁.takeLowerPath hu₁ hf₁ ⟨parent.mnt, d⟩, rfl⟩

/-- A lookup of the VFS: what the new dentry holds goes with it when the lookup fails. -/
lemma vfsLookup {parent : DentryId} {o : LookupEnv} (h : s.Ledger more leaked)
    (ho : ∀ a, o.interpose.splice = .other a → s.IsFile a)
    (hs : s.vfsLookup parent o = .ok s') : s'.Ledger more leaked := by
  have hfresh := s.up.freshDentry_notMem
  set u := s.up.freshDentry with hu
  have hself : (s.dAlloc parent).up.dentry u = ⟨parent, none, none, false, false⟩ := by
    simp [Wrapfs.dAlloc, hu]
  have hmem : u ∈ (s.dAlloc parent).up.dentries := Finset.mem_insert_self _ _
  obtain ⟨⟨ret, t⟩, hl, hs⟩ := Except.bind_eq_ok.mp hs
  have ht : t.Ledger more leaked ∧ u ∈ t.up.dentries := by
    obtain ⟨p, t', -, hb, htl, hp⟩ := of_withLowerPath hl
    have hget := (h.dAlloc parent).get p
    split_ifs at hb with hpd
    · obtain ⟨-, rfl⟩ : _ = ret ∧ _ = t' := by simpa using hb
      exact ⟨hget.put htl hp, by rwa [htl]⟩
    · obtain ⟨hl', hd⟩ := hget.lookupDentry hmem (by rw [hself]) (by rw [hself]) (fun a ha => by
        have hne : a ≠ u := fun e => hfresh (e ▸ (ho a ha).mem)
        simpa [Wrapfs.dAlloc, ← hu, hne] using (ho a ha).positive) hb
      exact ⟨hl'.put htl hp, by rw [htl, hd]; exact hmem⟩
  simp only at hs
  split_ifs at hs with hret
  · obtain rfl : t = s' := by simpa [Except.pure_eq_ok] using hs
    exact ht.1
  · obtain ⟨t', hk, hl', -⟩ := ht.1.kill ht.2
    rw [hs] at hk
    exact Except.ok.inj hk ▸ hl'

/-! ### Other requests -/

/-- `d_delete` after the dentry has left the cache. -/
lemma dDelete (h : s.Ledger more leaked) (hu : u ∈ s.up.dentries)
    (hh : (s.up.dentry u).hashed = false) {sole : Bool} (hs : s.dDelete u sole = .ok s') :
    s'.Ledger more leaked := by
  cases sole with
  | false =>
    obtain rfl : _ = s' := by simpa [Wrapfs.dDelete] using hs
    exact h.keeps (Layers.dDrop_keeps h.good u) rfl
  | true =>
    obtain ⟨up, he, hok, heq, -⟩ := h.unlinkInode hu
    obtain rfl : { s with up := up } = s' := by
      simpa [Wrapfs.dDelete, he] using hs
    have hpaths : up.paths = s.up.paths := by
      rw [heq]
      exact Upper.paths_modifyDentry (f := fun d => { d with inode := none }) rfl
    refine ⟨⟨hok, ?_, by rw [heq]; exact h.good.super⟩, by rw [h.pins, hpaths]⟩
    rw [heq]
    exact Upper.formed_modifyDentry (f := fun d => { d with inode := none })
      (fun _ => h.good.formed) fun hu => ⟨(h.good.formed hu).ops, by simp [hh]⟩

lemma fhToDentry {o : NfsEnv} (h : s.Ledger more leaked) (hs : s.fhToDentry o = .ok s') :
    s'.Ledger more (leaked + held o.ilookup) := by
  simp only [Wrapfs.fhToDentry] at hs
  split at hs
  next => simp at hs
  next li hli =>
    have hgrab : (s.up.igrab li).Ok 0 (leaked + {li}) :=
      { inodeRefs := h.good.inodeRefs
        lowerRefs := by
          rw [Upper.igrab, h.good.lowerRefs, ← Multiset.singleton_add]
          exact (add_comm _ _).trans (add_assoc _ _ _)
        live := h.good.live
        lower := h.good.lower
        unique := h.good.unique }
    rw [hli, held_some]
    rcases (s.up.igrab li).iget_cases s.lower li o.iget with ⟨e, -, he⟩ | ⟨i, t, he, hg⟩
    · obtain rfl : _ = s' := by simpa [he, Except.ok_bind, Except.pure_eq_ok] using hs
      exact ⟨⟨hgrab, h.good.formed, h.good.super⟩, h.pins⟩
    · have ht : t.Ok {i} (leaked + {li}) := hgrab.gets hg
      have hd : t.dentry = s.up.dentry ∧ t.dentries = s.up.dentries :=
        ⟨hg.dentry_eq, hg.dentries_eq⟩
      have hformed : ∀ v ∈ t.dentries, (t.dentry v).Formed := by
        rw [hd.1, hd.2]
        exact fun v hv => h.good.formed hv
      have hpaths : t.paths = s.up.paths := by cases hg <;> rfl
      have hsuper : ∃ sb, t.sbInfo = some (some sb) ∧ t.superRefs = {sb} := by
        cases hg <;> exact h.good.super
      simp only [he, Except.ok_bind] at hs
      split at hs
      next heq => simp at heq
      next heq _ =>
        obtain rfl := (Except.ok.inj heq)
        obtain rfl : _ = s' := by simpa [Except.pure_eq_ok] using hs
        refine ⟨⟨Upper.Ok.addDentry (by simpa using ht), ?_, hsuper⟩, ?_⟩
        · intro v hv
          by_cases hvu : v = t.freshDentry
          · subst hvu
            simpa using (⟨rfl, by simp⟩ : Dentry.Formed ⟨t.freshDentry, some i, none, false, false⟩)
          · simpa [hvu] using hformed v (Finset.mem_of_mem_insert_of_ne hv hvu)
        · rw [h.pins, ← hpaths]
          congr 2
          exact (Upper.paths_insert rfl).symm
      next heq _ =>
        obtain rfl := (Except.ok.inj heq)
        obtain ⟨up, hup, hs⟩ := Except.bind_eq_ok.mp hs
        obtain rfl : _ = s' := by simpa [Except.pure_eq_ok] using hs
        have ht' : t.Ok (i ::ₘ 0) (leaked + {li}) := ht
        obtain ⟨up', hup', hok, hsame, -⟩ := ht'.iput
        obtain rfl : up' = up := Except.ok.inj (hup'.symm.trans hup)
        refine ⟨⟨hok, ?_, by rw [hsame]; exact hsuper⟩, ?_⟩
        · rw [hsame]
          exact fun hv => hformed _ hv
        · rw [h.pins, ← hpaths, hsame]
          rfl

lemma openFile {f : UpperFile} {o : OpenEnv} (h : s.Ledger more leaked) (hf : f ∉ s.up.files)
    (hs : s.openFile f u o = .ok (err, s')) : s'.Ledger more leaked := by
  rcases of_openFile hs with ⟨-, rfl⟩ | ⟨p, i, li, -, -, rfl⟩
  · exact h
  · have hpaths : (openedAt s.up f p).paths = p ::ₘ s.up.paths := by
      have hne : ∀ g ∈ s.up.files, g ≠ f := fun g hg e => hf (e ▸ hg)
      rw [Upper.paths, Upper.paths, openedAt]
      simp only
      rw [holdings_insert_congr hf (f := fun g => some (s.up.filePath g))
        fun g hg => by simp [hne g hg]]
      simp only [Function.update_self, held_some]
      rw [add_left_comm, Multiset.singleton_add]
    have hgood : (openedAt s.up f p).Good leaked :=
      { h.good with }
    have hk := Layers.setNlink_keeps (s := ⟨s.lower, openedAt s.up f p⟩) hgood i li
    refine ⟨hk.good, ?_⟩
    rw [hk.paths]
    show s.pins.pathGet p = .of (more + (openedAt s.up f p).paths)
    rw [hpaths, Multiset.add_cons, ← Pins.pathGet_of, h.pins]

lemma fileRelease {f : UpperFile} (h : s.Ledger more leaked) (hf : f ∈ s.up.files)
    (hs : s.fileRelease f = .ok s') : s'.Ledger more leaked ∧
      s'.toLayers = { s.toLayers with up := { s.up with files := s.up.files.erase f } } := by
  obtain ⟨hl, hp⟩ := of_putLowerPath hs
  have hpaths : s.up.paths =
      s.up.filePath f ::ₘ ({ s.up with files := s.up.files.erase f } : Upper).paths := by
    rw [Upper.paths, Upper.paths, ← holdings_erase (f := fun g => some (s.up.filePath g)) hf,
      held_some, add_left_comm, Multiset.singleton_add]
  rw [h.pins, hpaths, Multiset.add_cons, Pins.pathPut_of] at hp
  obtain ⟨l, pins⟩ := s'
  obtain rfl : l = _ := hl
  exact ⟨⟨{ h.good with }, (Except.ok.inj hp).symm⟩, rfl⟩

end Ledger

end Wrapfs

end FastMap
