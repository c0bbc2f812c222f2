import FastMap.StackLedger

/-!
# From mount to unmount

`wrapfs_read_super` puts the driver over a directory (`dmapfs_main.c`). After any requests, the
kernel unmounts it by dropping the dentries, and with them the inodes, before `wrapfs_put_super`
lets go of the super block below (`dmapfs_super.c`).
-/

namespace FastMap

variable {leaked : Multiset LowerInodeId} {err : ℤ}

/-- The answers that `wrapfs_read_super` gets. -/
structure MountEnv where
  /-- Whether there is a `dev_name`. -/
  devName : Bool
  /-- The answer of `kern_path`, and the path that it finds. -/
  kernPath : ℤ
  path : LowerPath
  kzalloc : Bool
  iget : IgetEnv
  /-- Whether `d_make_root` gets memory. -/
  makeRoot : Bool
  /-- Whether `new_dentry_private_data` gets memory. -/
  privateData : Bool

namespace Wrapfs

/-! ### Mount -/

/-- `atomic_dec(&lower_sb->s_active)` -/
def superPut (s : Wrapfs) (sb : SbId) : Except Halt Wrapfs :=
  if sb ∈ s.up.superRefs then
    .ok { s with up := { s.up with superRefs := s.up.superRefs.erase sb } }
  else .error .bug

/-- `out_sput`: the way out of `wrapfs_read_super` with the error `err`. -/
def outSput (s : Wrapfs) (sb : SbId) (p : LowerPath) (err : ℤ) : Except Halt (ℤ × Wrapfs) := do
  let s ← s.superPut sb
  let s ← { s with up := { s.up with sbInfo := none } }.putLowerPath p
  pure (err, s)

/-- `out_iput` -/
def outIput (s : Wrapfs) (i : InodeId) (sb : SbId) (p : LowerPath) : Except Halt (ℤ × Wrapfs) := do
  let up ← s.up.iput i
  { s with up := up }.outSput sb p (-enomem)

/-- `wrapfs_read_super` from `d_make_root` on, with the inode `i` of the root. -/
def makeRoot (s : Wrapfs) (i : InodeId) (sb : SbId) (o : MountEnv) : Except Halt (ℤ × Wrapfs) :=
  if !o.makeRoot then do
    -- `d_make_root` drops the inode when it fails
    let up ← s.up.iput i
    { s with up := up }.outIput i sb o.path
  else
    let root := s.up.freshDentry
    let s := { s with up := { s.up with
      dentries := insert root s.up.dentries
      dentry := Function.update s.up.dentry root ⟨root, some i, none, true, false⟩ } }
    if !o.privateData then do
      let s ← s.kill root
      s.outIput i sb o.path
    else
      .ok (0, { s with up := s.up.modifyDentry root fun d =>
        { d with fsdata := some (some o.path), hashed := true } })

/-- `wrapfs_read_super` -/
def readSuper (s : Wrapfs) (o : MountEnv) : Except Halt (ℤ × Wrapfs) :=
  if !o.devName then .ok (-einval, s)
  else if o.kernPath ≠ 0 then .ok (o.kernPath, s)
  else
    let s := { s with pins := s.pins.pathGet o.path }
    if !o.kzalloc then do
      let s ← s.putLowerPath o.path
      pure (-enomem, s)
    else
      match s.lower.dInode o.path.dentry with
      | none => .error .nullDeref
      | some li => do
        let sb := s.lower.iSb li
        let (r, up) ← { s.up with
          sbInfo := some (some sb), superRefs := sb ::ₘ s.up.superRefs }.iget s.lower li o.iget
        let s := { s with up := up }
        match r with
        | .error e => s.outSput sb o.path e
        | .ok i => s.makeRoot i sb o

/-- Nothing is mounted, and the driver holds nothing but what it has leaked. -/
structure Unmounted (leaked : Multiset LowerInodeId) (s : Wrapfs) : Prop where
  dentries : s.up.dentries = ∅
  inodes : s.up.inodes = ∅
  inodeRefs : s.up.inodeRefs = 0
  lowerRefs : s.up.lowerRefs = leaked
  files : s.up.files = ∅
  sbInfo : s.up.sbInfo = none
  superRefs : s.up.superRefs = 0
  pins : s.pins = .of 0

/-! ### Unmount -/

/-- `wrapfs_put_super` -/
def putSuper (s : Wrapfs) : Except Halt Wrapfs :=
  match s.up.sbInfo with
  | none => .ok s
  | some none => .error .nullDeref
  | some (some sb) => do
    let s ← s.superPut sb
    pure { s with up := { s.up with sbInfo := none } }

/-- `generic_shutdown_super`, which drops the dentries in some order. -/
def shutdown (s : Wrapfs) (order : List DentryId) : Except Halt Wrapfs := do
  let s ← order.foldlM kill s
  s.putSuper

/-! ### What a mount leaves -/

variable {s s' : Wrapfs} {o : MountEnv}

namespace Unmounted

lemma ok (h : s.Unmounted leaked) {x : Option (Option SbId)} {refs : Multiset SbId} :
    { s.up with sbInfo := x, superRefs := refs }.Ok 0 leaked where
  inodeRefs := by simp [h.dentries, h.inodeRefs]
  lowerRefs := by simp [h.inodes, h.lowerRefs]
  live := by simp [h.inodes, h.inodeRefs]
  lower := by simp [h.inodes]
  unique := by simp [h.inodes]

lemma paths (h : s.Unmounted leaked) : s.up.paths = 0 := by
  simp [Upper.paths, h.dentries, h.files]

/-- The way out after the super block has been taken leaves nothing behind. -/
lemma outSput (h : s.Unmounted leaked) (sb : SbId) (p : LowerPath) (e : ℤ) :
    Wrapfs.outSput ⟨⟨s.lower, { s.up with sbInfo := some (some sb), superRefs := {sb} }⟩,
      s.pins.pathGet p⟩ sb p e = .ok (e, s) := by
  have hup : { s.up with sbInfo := none, superRefs := 0 } = s.up := by
    rw [← h.sbInfo, ← h.superRefs]
  simp [Wrapfs.outSput, superPut, putLowerPath, Pins.pathPut_pathGet, Except.ok_bind,
    Except.pure_eq_ok, hup]

end Unmounted

/-- Without memory for the root, `wrapfs_read_super` drops the inode a second time. -/
lemma makeRoot_of_no_root {t : Wrapfs} {i : InodeId} {sb : SbId} (h : t.up.Ok {i} leaked)
    (hd : t.up.dentries = ∅) (ho : o.makeRoot = false) :
    t.makeRoot i sb o = .error .bug := by
  have h' : t.up.Ok (i ::ₘ 0) leaked := h
  obtain ⟨up, he, hok, hsame, -⟩ := h'.iput
  have hrefs : up.inodeRefs = 0 := by
    have hd' : up.dentries = ∅ := by rw [hsame]; exact hd
    simp [hok.inodeRefs, hd']
  have hagain : up.iput i = .error .bug := by simp [Upper.iput, hrefs]
  simp only [makeRoot, ho, he, Except.ok_bind, outIput, hagain]
  rfl

/-- Without memory for the data of the root, `wrapfs_d_release` follows an empty pointer. -/
lemma makeRoot_of_no_data {t : Wrapfs} {i : InodeId} {sb : SbId} (h : t.up.Ok {i} leaked)
    (hr : o.makeRoot = true) (ho : o.privateData = false) :
    t.makeRoot i sb o = .error .nullDeref := by
  set root := t.up.freshDentry with hroot
  set up : Upper := { t.up with
    dentries := insert root t.up.dentries
    dentry := Function.update t.up.dentry root ⟨root, some i, none, true, false⟩ } with hup
  have hok : up.Ok 0 leaked := Upper.Ok.addDentry (by simpa using h)
  have hself : up.dentry root = ⟨root, some i, none, true, false⟩ := by simp [hup]
  obtain ⟨up', he, -, hsame, -⟩ := (hok.detach (f := fun d => { d with inode := none })
    (Finset.mem_insert_self _ _ : root ∈ up.dentries) (by rw [hself]) rfl).iput
  have hself' : up'.dentry root = ⟨root, none, none, true, false⟩ := by
    rw [hsame]
    simp [Upper.modifyDentry, hself]
  have hkill : Wrapfs.kill { t with up := up } root = .error .nullDeref := by
    simp only [kill, unlinkInode, hself, he, Except.ok_bind, Except.pure_eq_ok, release, hself',
      dRelease, putResetLowerPath]
    rfl
  simp only [makeRoot, hr, ho, Bool.not_true, Bool.not_false, Bool.false_eq_true, if_false, if_true,
    ← hroot, ← hup, hkill]
  rfl

/-- The root of a mounted file system. -/
structure Mounted (leaked : Multiset LowerInodeId) (L : LowerFs) (o : MountEnv) (s : Wrapfs) :
    Prop where
  ledger : s.Ledger 0 leaked
  lower : s.lower = L
  root : ∃ root i li, s.up.dentries = {root} ∧ s.up.inodes = {i} ∧
    s.up.dentry root = ⟨root, some i, some (some o.path), true, true⟩ ∧
    s.up.inode i = Upper.initInode L li ∧ L.dInode o.path.dentry = some li ∧
    s.up.sbInfo = some (some (L.iSb li))
  files : s.up.files = ∅

lemma makeRoot_mounted (h : s.Unmounted leaked) {li : LowerInodeId}
    (hli : s.lower.dInode o.path.dentry = some li) (hr : o.makeRoot = true)
    (ho : o.privateData = true) {up : Upper}
    (hup : up = { s.up with
      sbInfo := some (some (s.lower.iSb li)), superRefs := {s.lower.iSb li} }) :
    ∃ s', Wrapfs.makeRoot ⟨⟨s.lower, up.addInode s.lower li⟩, s.pins.pathGet o.path⟩ up.freshInode
      (s.lower.iSb li) o = .ok (0, s') ∧ Mounted leaked s.lower o s' := by
  have hok : up.Ok 0 leaked := hup ▸ h.ok
  have hnone : up.cached li = none := by
    simp only [Upper.cached, hup, h.inodes]
    rfl
  have hadd : (up.addInode s.lower li).Ok {up.freshInode} leaked := hok.gets (.new hnone)
  set t := up.addInode s.lower li with ht
  set root := t.freshDentry with hroot
  set t' : Upper := { t with
    dentries := insert root t.dentries
    dentry := Function.update t.dentry root ⟨root, some up.freshInode, none, true, false⟩ } with ht'
  have hok' : t'.Ok 0 leaked := Upper.Ok.addDentry (by simpa using hadd)
  have hself : t'.dentry root = ⟨root, some up.freshInode, none, true, false⟩ := by simp [ht']
  have hdentries : t'.dentries = {root} := by simp [ht', ht, Upper.addInode, hup, h.dentries]
  have hmem : root ∈ t'.dentries := by simp [hdentries]
  have hpaths : t'.paths = 0 := by
    rw [ht', Upper.paths_insert rfl]
    simp [Upper.paths, ht, Upper.addInode, hup, h.dentries, h.files]
  have hnow : (t'.modifyDentry root fun d =>
      { d with fsdata := some (some o.path), hashed := true }).dentry root =
      ⟨root, some up.freshInode, some (some o.path), true, true⟩ := by
    simp [Upper.modifyDentry, hself]
  refine ⟨⟨⟨s.lower, t'.modifyDentry root fun d =>
    { d with fsdata := some (some o.path), hashed := true }⟩, s.pins.pathGet o.path⟩, ?_, ?_⟩
  · simp only [makeRoot, hr, ho, Bool.not_true, Bool.false_eq_true, if_false]
    rfl
  · have hok'' := hok'.modifyDentry (u := root)
      (f := fun d => { d with fsdata := some (some o.path), hashed := true }) rfl
    refine ⟨⟨⟨hok'', ?_, ?_⟩, ?_⟩, rfl, ?_, ?_⟩
    · intro v hv
      obtain rfl : v = root := by simpa [hdentries, Upper.modifyDentry] using hv
      rw [hnow]
      exact ⟨rfl, fun _ => rfl⟩
    · exact ⟨s.lower.iSb li, by rw [ht', ht, Upper.addInode, hup]; rfl,
        by rw [ht', ht, Upper.addInode, hup]; rfl⟩
    · rw [Upper.paths_setPath hmem (by rw [hself]; rfl) rfl, hpaths, h.pins, Pins.pathGet_of]
      rfl
    · refine ⟨root, up.freshInode, li, hdentries, ?_, hnow, ?_, hli, ?_⟩
      · simp [ht', ht, Upper.addInode, hup, Upper.modifyDentry, h.inodes]
      · simp [ht', ht, Upper.addInode, Upper.modifyDentry]
      · simp [ht', ht, Upper.addInode, hup, Upper.modifyDentry]
    · simp [ht', ht, Upper.addInode, hup, Upper.modifyDentry, h.files]

end Wrapfs

/-- `wrapfs_read_super` gets as far as `d_make_root`. -/
def MountEnv.ReachesRoot (o : MountEnv) : Prop :=
  o.devName = true ∧ o.kernPath = 0 ∧ o.kzalloc = true ∧ o.iget.igrab = true ∧ o.iget.alloc = true

namespace Wrapfs

variable {s : Wrapfs} {o : MountEnv}

/-- A mount that does not get as far as the root fails, and gives back all that it has taken. One
that does goes through if there is memory for the root and for its data, and goes wrong if not. -/
lemma readSuper_cases (h : s.Unmounted leaked)
    (hd : o.devName = true → o.kernPath = 0 → (s.lower.dInode o.path.dentry).isSome) :
    (¬ o.ReachesRoot → ∃ err, err ≠ 0 ∧ s.readSuper o = .ok (err, s)) ∧
    (o.ReachesRoot → o.makeRoot = true ∧ o.privateData = true →
      ∃ s', s.readSuper o = .ok (0, s') ∧ Mounted leaked s.lower o s') ∧
    (o.ReachesRoot → ¬ (o.makeRoot = true ∧ o.privateData = true) →
      ∃ e, s.readSuper o = .error e) := by
  by_cases hdev : o.devName = true
  swap
  · have hnot : ¬ o.ReachesRoot := fun hr => hdev hr.1
    exact ⟨fun _ => ⟨-einval, by decide, by simp [readSuper, hdev]⟩, fun hr => absurd hr hnot,
      fun hr => absurd hr hnot⟩
  by_cases hkern : o.kernPath = 0
  swap
  · have hnot : ¬ o.ReachesRoot := fun hr => hkern hr.2.1
    exact ⟨fun _ => ⟨o.kernPath, hkern, by simp [readSuper, hdev, hkern]⟩,
      fun hr => absurd hr hnot, fun hr => absurd hr hnot⟩
  by_cases hk : o.kzalloc = true
  swap
  · have hnot : ¬ o.ReachesRoot := fun hr => hk hr.2.2.1
    refine ⟨fun _ => ⟨-enomem, by decide, ?_⟩, fun hr => absurd hr hnot, fun hr => absurd hr hnot⟩
    simp [readSuper, hdev, hkern, hk, putLowerPath, Pins.pathPut_pathGet, Except.ok_bind,
      Except.pure_eq_ok]
  obtain ⟨li, hli⟩ := Option.isSome_iff_exists.mp (hd hdev hkern)
  set up : Upper := { s.up with
    sbInfo := some (some (s.lower.iSb li)), superRefs := {s.lower.iSb li} } with hup
  have hok : up.Ok 0 leaked := h.ok
  have hnone : up.cached li = none := by
    simp only [Upper.cached, hup, h.inodes]
    rfl
  -- up to `wrapfs_iget` there is one way
  have hread : s.readSuper o = (up.iget s.lower li o.iget >>= fun x =>
      match x.1 with
      | .error e => Wrapfs.outSput ⟨⟨s.lower, x.2⟩, s.pins.pathGet o.path⟩ (s.lower.iSb li) o.path e
      | .ok i => Wrapfs.makeRoot ⟨⟨s.lower, x.2⟩, s.pins.pathGet o.path⟩ i (s.lower.iSb li) o) := by
    simp [readSuper, hdev, hkern, hk, hli, hup, h.superRefs]
  rw [Upper.iget_of_cached_none hnone] at hread
  by_cases hg : o.iget.igrab = true ∧ o.iget.alloc = true
  · have hreach : o.ReachesRoot := ⟨hdev, hkern, hk, hg⟩
    simp only [hg.1, hg.2, Bool.not_true, Bool.false_eq_true, if_false, if_true,
      Except.ok_bind] at hread
    have hadd : (up.addInode s.lower li).Ok {up.freshInode} leaked := hok.gets (.new hnone)
    refine ⟨fun hn => absurd hreach hn, fun _ hm => ?_, fun _ hm => ?_⟩
    · obtain ⟨s', hs', hm'⟩ := makeRoot_mounted h hli hm.1 hm.2 hup
      exact ⟨s', hread.trans hs', hm'⟩
    · rw [hread]
      by_cases hr : o.makeRoot = true
      · have hp : o.privateData = false := by simpa [hr] using hm
        exact ⟨_, makeRoot_of_no_data hadd hr hp⟩
      · exact ⟨_, makeRoot_of_no_root hadd h.dentries (by simpa using hr)⟩
  · have hnot : ¬ o.ReachesRoot := fun hr => hg hr.2.2.2
    refine ⟨fun _ => ?_, fun hr => absurd hr hnot, fun hr => absurd hr hnot⟩
    obtain ⟨e, he, hs⟩ : ∃ e, e ≠ 0 ∧ s.readSuper o =
        Wrapfs.outSput ⟨⟨s.lower, up⟩, s.pins.pathGet o.path⟩ (s.lower.iSb li) o.path e := by
      by_cases hi : o.iget.igrab = true
      · have ha : o.iget.alloc = false := by simpa [hi] using hg
        exact ⟨-enomem, by decide, by rw [hread]; simp [hi, ha, Except.ok_bind]⟩
      · exact ⟨-estale, by decide, by rw [hread]; simp [hi, Except.ok_bind]⟩
    exact ⟨e, he, hs.trans (h.outSput _ _ _)⟩

/-! ### Requests -/

namespace Ledger

variable {s' : Wrapfs}

lemma makeEntry {links : Bool} {dir : InodeId} {u : DentryId} {o : MakeEnv} (h : s.Ledger 0 leaked)
    (hi : s.IsNew dir u o.interpose) (hs : s.makeEntry links dir u o = .ok (err, s')) :
    s'.Ledger 0 leaked := by
  obtain ⟨hp, p, -, hm⟩ := of_makeEntry h.good.toOk h.locks hs
  exact h.keeps (hm.keeps h.good hi.mem hi.negative fun a ha => (hi.other ha).1.positive) hp

lemma execPath {u : DentryId} {r : PathRequest} (h : s.Ledger 0 leaked)
    (hs : s.execPath u r = .ok (err, s')) : s'.Ledger 0 leaked := by
  have hcall : ∀ {unsupported : ℤ} {source : AttrSource} {o : PathEnv},
      s.pathCall unsupported source u o = .ok (err, s') → s'.Ledger 0 leaked := by
    intro unsupported source o hs
    obtain ⟨hp, p, -, hm⟩ := of_pathCall hs
    exact h.keeps (hm.keeps h.good) hp
  cases r with
  | revalidate rcu o =>
    simp only [Wrapfs.execPath, dRevalidate] at hs
    split_ifs at hs with hr
    · obtain ⟨-, rfl⟩ : -echild = err ∧ s = s' := by simpa using hs
      exact h
    · exact hcall hs
  | readlink o => exact hcall hs
  | getattr call => exact hcall hs
  | setxattr o => exact hcall hs
  | getxattr o => exact hcall hs
  | listxattr o => exact hcall hs
  | removexattr o => exact hcall hs
  | statfs call => exact hcall hs
  | fsync call => exact hcall hs

/-- `vfs_unlink` and `vfs_rmdir` of the upper level, after a call that drops the dentry from the
cache when it succeeds. -/
lemma vfsRemove {u : DentryId} {sole : Bool} {t : Wrapfs} (h : t.Ledger 0 leaked)
    (hu : u ∈ t.up.dentries) (hh : err = 0 → (t.up.dentry u).hashed = false)
    (hs : Wrapfs.vfsRemove u sole (err, t) = .ok s') : s'.Ledger 0 leaked := by
  simp only [Wrapfs.vfsRemove] at hs
  split_ifs at hs with he
  · exact h.dDelete hu (hh he) hs
  · obtain rfl : t = s' := by simpa using hs
    exact h

/-- Every request keeps the ledger, and leaves behind what it is known to. -/
lemma step {r : Request} (h : s.Ledger 0 leaked) (hs : s.Steps r s') :
    s'.Ledger 0 (leaked + r.leaked) := by
  obtain ⟨hi, hs⟩ := hs
  have hmake : ∀ {links : Bool} {dir : InodeId} {u : DentryId} {o : MakeEnv},
      s.IsNew dir u o.interpose → (s.makeEntry links dir u o).map Prod.snd = .ok s' →
      s'.Ledger 0 (leaked + 0) := by
    intro links dir u o hi hs
    obtain ⟨⟨err, t⟩, ht, rfl⟩ := Except.map_eq_ok.mp hs
    simpa using h.makeEntry hi ht
  cases r with
  | lookup parent o => simpa [Request.leaked] using h.vfsLookup hi.2 hs
  | create dir u o => exact hmake hi hs
  | symlink dir u o => exact hmake hi hs
  | mkdir dir u o => exact hmake hi hs
  | mknod dir u o => exact hmake hi hs
  | link old new o =>
    obtain ⟨-, dir, hi⟩ := hi
    obtain ⟨⟨err, t⟩, ht, rfl⟩ := Except.map_eq_ok.mp hs
    obtain ⟨hp, p, -, hm⟩ := of_link h.good.toOk h.locks ht
    have hk := hm.keeps h.good hi.mem hi.negative fun a ha => (hi.other ha).1.positive
    simpa [Request.leaked] using h.keeps hk hp
  | unlink dir u o sole =>
    obtain ⟨⟨err, t⟩, ht, hs⟩ := Except.bind_eq_ok.mp hs
    obtain ⟨hp, p, -, hm⟩ := of_unlink h.locks ht
    have hk := hm.keeps h.good
    simpa [Request.leaked] using (h.keeps hk hp).vfsRemove (hk.dentries ▸ hi.mem) hm.hashed hs
  | rmdir dir u call sole =>
    obtain ⟨⟨err, t⟩, ht, hs⟩ := Except.bind_eq_ok.mp hs
    obtain ⟨hp, p, -, hm⟩ := of_rmdir h.locks ht
    have hk := hm.keeps h.good
    simpa [Request.leaked] using (h.keeps hk hp).vfsRemove (hk.dentries ▸ hi.mem) hm.hashed hs
  | rename oldDir old newDir new o =>
    obtain ⟨⟨err, t⟩, ht, hs⟩ := Except.bind_eq_ok.mp hs
    obtain ⟨hp, hm⟩ := of_rename h.locks ht
    obtain ⟨hk, hd⟩ : Upper.Keeps leaked s.up t.up ∧ t.up.dentry = s.up.dentry := by
      rcases hm with ⟨-, hl⟩ | ⟨p, q, -, -, hm⟩
      · rw [hl]
        exact ⟨.refl h.good, rfl⟩
      · exact ⟨hm.keeps h.good, hm.dentry_eq⟩
    have ht' : t.Ledger 0 leaked := h.keeps hk hp
    obtain rfl : _ = s' := Except.ok.inj hs
    simp only [Request.leaked, add_zero]
    split_ifs with he
    · exact ht'.keeps (ht'.good.dMove (by rw [hd]; exact hi.1.positive)) rfl
    · exact ht'
  | path u r =>
    obtain ⟨⟨err, t⟩, ht, rfl⟩ := Except.map_eq_ok.mp hs
    simpa [Request.leaked] using h.execPath ht
  | setattr u o =>
    obtain ⟨⟨err, t⟩, ht, rfl⟩ := Except.map_eq_ok.mp hs
    obtain ⟨hp, hm⟩ := of_setattr h.locks ht
    have hk : Upper.Keeps leaked s.up t.up := by
      rcases hm with hl | ⟨p, -, hm⟩
      · rw [hl]
        exact .refl h.good
      · exact hm.keeps h.good
    simpa [Request.leaked] using h.keeps hk hp
  | openFile f u o =>
    obtain ⟨⟨err, t⟩, ht, rfl⟩ := Except.map_eq_ok.mp hs
    simpa [Request.leaked] using h.openFile hi.2 ht
  | fileRelease f => simpa [Request.leaked] using (h.fileRelease hi hs).1
  | kill u =>
    obtain ⟨t, ht, hl, -⟩ := h.kill hi.1
    obtain rfl : t = s' := Except.ok.inj (ht.symm.trans hs)
    simpa [Request.leaked] using hl
  | nfs o => exact h.fhToDentry hs
  | others fs =>
    obtain rfl : _ = s' := Except.ok.inj hs
    simpa [Request.leaked] using (⟨h.good, h.pins⟩ : Ledger 0 leaked { s with lower := fs })

end Ledger

/-! ### Sessions -/

/-- The references that a run leaves behind. -/
def leakedBy (rs : List Request) : Multiset LowerInodeId := (rs.map Request.leaked).sum

namespace Ledger

variable {s' : Wrapfs} {rs : List Request}

lemma run (h : s.Ledger 0 leaked) (hr : Run Steps s rs s') :
    s'.Ledger 0 (leaked + leakedBy rs) := by
  induction hr with
  | nil => simpa [leakedBy] using h
  | snoc _ hs ih => simpa [leakedBy, add_assoc] using ih.step hs

/-- The dentries may go in any order. -/
lemma killAll {order : List DentryId} (h : s.Ledger 0 leaked) (hnd : order.Nodup)
    (ho : ∀ u ∈ order, u ∈ s.up.dentries) :
    ∃ s', order.foldlM Wrapfs.kill s = .ok s' ∧ s'.Ledger 0 leaked ∧
      s'.up.dentries = s.up.dentries \ order.toFinset ∧ s'.up.files = s.up.files := by
  induction order generalizing s with
  | nil => exact ⟨s, rfl, h, by simp, rfl⟩
  | cons u order ih =>
    obtain ⟨t, ht, hl, hk⟩ := h.kill (ho u (by simp))
    obtain ⟨hnu, hnd⟩ := List.nodup_cons.mp hnd
    have hrest : ∀ v ∈ order, v ∈ t.up.dentries := by
      intro v hv
      rw [hk.dentries]
      exact Finset.mem_erase.mpr ⟨fun e => hnu (e ▸ hv), ho v (by simp [hv])⟩
    obtain ⟨s', hs, hl', hd, hf⟩ := ih hl hnd hrest
    refine ⟨s', ?_, hl', ?_, hf.trans hk.files⟩
    · rw [List.foldlM_cons, ht, Except.ok_bind, hs]
    · rw [hd, hk.dentries]
      ext v
      simp only [Finset.mem_sdiff, Finset.mem_erase, List.mem_toFinset, List.mem_cons]
      tauto

lemma shutdown {order : List DentryId} (h : s.Ledger 0 leaked) (hf : s.up.files = ∅)
    (hnd : order.Nodup) (ho : ∀ u, u ∈ order ↔ u ∈ s.up.dentries) :
    ∃ s', s.shutdown order = .ok s' ∧ s'.Unmounted leaked := by
  obtain ⟨t, ht, hl, hd, hft⟩ := h.killAll hnd fun u hu => (ho u).mp hu
  have hempty : t.up.dentries = ∅ := by
    rw [hd]
    ext u
    simp [ho]
  obtain ⟨sb, hsb, hrefs⟩ := hl.good.super
  have hirefs : t.up.inodeRefs = 0 := by simp [hl.good.inodeRefs, hempty]
  have hinodes : t.up.inodes = ∅ := by
    ext i
    simp [hl.good.live, hirefs]
  refine ⟨{ t with up := { t.up with superRefs := 0, sbInfo := none } }, ?_, ?_⟩
  · simp only [Wrapfs.shutdown, ht, Except.ok_bind, putSuper, hsb, superPut, hrefs]
    simp [Except.ok_bind, Except.pure_eq_ok]
  · exact
      { dentries := hempty
        inodes := hinodes
        inodeRefs := hirefs
        lowerRefs := by simp [hl.good.lowerRefs, hinodes]
        files := hft.trans hf
        sbInfo := rfl
        superRefs := rfl
        pins := by simp [hl.pins, Upper.paths, hempty, hft, hf] }

end Ledger

/-- A mount that goes through has found a directory. -/
lemma mounted_of_readSuper {s' : Wrapfs} (h : s.Unmounted leaked)
    (hs : s.readSuper o = .ok (0, s')) : Mounted leaked s.lower o s' := by
  have hd : o.devName = true → o.kernPath = 0 → (s.lower.dInode o.path.dentry).isSome := by
    intro hdev hkern
    by_contra hn
    have hnone : s.lower.dInode o.path.dentry = none := by simpa using hn
    by_cases hk : o.kzalloc = true
    · simp [readSuper, hdev, hkern, hk, hnone] at hs
    · simp [readSuper, hdev, hkern, hk, putLowerPath, Pins.pathPut_pathGet, Except.ok_bind,
        Except.pure_eq_ok, enomem] at hs
  obtain ⟨hfail, hgood, hbad⟩ := readSuper_cases h hd
  by_cases hr : o.ReachesRoot
  · by_cases hm : o.makeRoot = true ∧ o.privateData = true
    · obtain ⟨t, ht, hm'⟩ := hgood hr hm
      obtain ⟨-, rfl⟩ : (0 : ℤ) = 0 ∧ t = s' := by simpa [ht] using hs
      exact hm'
    · obtain ⟨e, he⟩ := hbad hr hm
      simp [he] at hs
  · obtain ⟨e, he, hs'⟩ := hfail hr
    simp [hs', he] at hs

/-- The upper level before the first mount. -/
def start (L : LowerFs) : Wrapfs where
  lower := L
  up :=
    { dentries := ∅
      dentry := fun _ => ⟨0, none, none, false, false⟩
      inodes := ∅
      inode := fun _ => ⟨none, 0, none, none, none, 1⟩
      inodeRefs := 0
      lowerRefs := 0
      files := ∅
      filePath := fun _ => ⟨0, 0⟩
      sbInfo := none
      superRefs := 0 }
  pins := ⟨0, 0, 0⟩

lemma start_unmounted (L : LowerFs) : (start L).Unmounted 0 := by
  constructor <;> rfl

/-- A lower file system with an empty directory. -/
def emptyDir : LowerFs where
  dInode d := if d = 0 then some 2 else none
  dParent _ := 0
  iSb _ := 1
  iIno li := li
  iMode _ := .dir
  iNlink _ := 2
  dInode_parent _ := rfl
  dParent_unique _ := rfl

/-- A mount on it for which there is memory. -/
def mountEmptyDir : MountEnv := ⟨true, 0, ⟨0, 0⟩, true, ⟨true, true⟩, true, true⟩

lemma emptyDir_mounts : ∃ s₁, (start emptyDir).readSuper mountEmptyDir = .ok (0, s₁) ∧
    Mounted 0 emptyDir mountEmptyDir s₁ :=
  (readSuper_cases (start_unmounted emptyDir) fun _ _ => rfl).2.1 ⟨rfl, rfl, rfl, rfl, rfl⟩
    ⟨rfl, rfl⟩

/-- A file handle of the directory, where the lower inode is going away. -/
def staleHandle : NfsEnv := ⟨some 2, ⟨false, false⟩, .nomem⟩

lemma fhToDentry_staleHandle (s : Wrapfs) :
    s.fhToDentry staleHandle = .ok { s with up := s.up.igrab 2 } := rfl

variable {s₀ s₁ : Wrapfs} {rs : List Request}

/-- In every state that requests reach after a mount, with whatever answers and on whatever ways
out, the driver holds the lower paths of its dentries and open files, the lower inodes of its
inodes and those that file handles have leaked, and no lock. No two of its inodes are over the same
lower one. -/
theorem ledger_of_session (h₀ : s₀.Unmounted leaked) (hm : s₀.readSuper o = .ok (0, s₁))
    (hr : Run Steps s₁ rs s) : s.Ledger 0 (leaked + leakedBy rs) :=
  (mounted_of_readSuper h₀ hm).ledger.run hr

theorem ledger_of_session_staleHandle : ∃ s₁ s,
    (start emptyDir).readSuper mountEmptyDir = .ok (0, s₁) ∧ Run Steps s₁ [.nfs staleHandle] s ∧
      s.Ledger 0 {2} := by
  obtain ⟨s₁, hm, -⟩ := emptyDir_mounts
  have hr : Run Steps s₁ [.nfs staleHandle] { s₁ with up := s₁.up.igrab 2 } :=
    .snoc .nil ⟨trivial, fhToDentry_staleHandle s₁⟩
  exact ⟨s₁, _, hm, hr, ledger_of_session (start_unmounted emptyDir) hm hr⟩

/-- Whatever was done in between, an unmount gives back what the mount and the requests have taken,
in whatever order the dentries go. Only the references that file handles have leaked stay. -/
theorem shutdown_of_session (h₀ : s₀.Unmounted leaked) (hm : s₀.readSuper o = .ok (0, s₁))
    (hr : Run Steps s₁ rs s) (hf : s.up.files = ∅) {order : List DentryId} (hnd : order.Nodup)
    (ho : ∀ u, u ∈ order ↔ u ∈ s.up.dentries) :
    ∃ s', s.shutdown order = .ok s' ∧ s'.Unmounted (leaked + leakedBy rs) :=
  ((mounted_of_readSuper h₀ hm).ledger.run hr).shutdown hf hnd ho

theorem shutdown_of_session_staleHandle : ∃ s₁ s root s',
    (start emptyDir).readSuper mountEmptyDir = .ok (0, s₁) ∧ Run Steps s₁ [.nfs staleHandle] s ∧
      s.shutdown [root] = .ok s' ∧ s'.Unmounted {2} := by
  obtain ⟨s₁, hm, hmounted⟩ := emptyDir_mounts
  obtain ⟨root, i, li, hd, -⟩ := hmounted.root
  have hr : Run Steps s₁ [.nfs staleHandle] { s₁ with up := s₁.up.igrab 2 } :=
    .snoc .nil ⟨trivial, fhToDentry_staleHandle s₁⟩
  obtain ⟨s', hs, hu⟩ := shutdown_of_session (start_unmounted emptyDir) hm hr hmounted.files
    (List.nodup_singleton root) fun u => by simp [Upper.igrab, hd]
  exact ⟨s₁, _, root, s', hm, hr, hs, hu⟩

/-- A mount comes to an end unless there is no memory for the root or for its data. If it fails, it
gives back all that it has taken; if it goes through, the root is over the directory. -/
theorem readSuper_halts_iff (h : s.Unmounted leaked)
    (hd : o.devName = true → o.kernPath = 0 → (s.lower.dInode o.path.dentry).isSome) :
    ((∃ e, s.readSuper o = .error e) ↔
      o.ReachesRoot ∧ ¬ (o.makeRoot = true ∧ o.privateData = true)) ∧
    (∀ err s', s.readSuper o = .ok (err, s') →
      (err = 0 ∧ o.ReachesRoot ∧ Mounted leaked s.lower o s') ∨
      (err ≠ 0 ∧ ¬ o.ReachesRoot ∧ s' = s)) := by
  obtain ⟨hfail, hgood, hbad⟩ := readSuper_cases h hd
  by_cases hr : o.ReachesRoot
  · by_cases hm : o.makeRoot = true ∧ o.privateData = true
    · obtain ⟨t, ht, hm'⟩ := hgood hr hm
      refine ⟨by simp [ht, hm], fun err s' hs => Or.inl ?_⟩
      obtain ⟨rfl, rfl⟩ : 0 = err ∧ t = s' := by simpa [ht] using hs
      exact ⟨rfl, hr, hm'⟩
    · obtain ⟨e, he⟩ := hbad hr hm
      exact ⟨⟨fun _ => ⟨hr, hm⟩, fun _ => ⟨e, he⟩⟩, fun err s' hs => by simp [he] at hs⟩
  · obtain ⟨e, he, hs'⟩ := hfail hr
    refine ⟨by simp [hs', hr], fun err s' hs => Or.inr ?_⟩
    obtain ⟨rfl, rfl⟩ : e = err ∧ s = s' := by simpa [hs'] using hs
    exact ⟨he, hr, rfl⟩

theorem readSuper_halts_iff_emptyDir : ∃ e,
    (start emptyDir).readSuper { mountEmptyDir with privateData := false } = .error e := by
  have h := readSuper_halts_iff (o := { mountEmptyDir with privateData := false })
    (start_unmounted emptyDir) fun _ _ => rfl
  exact h.1.mpr ⟨⟨rfl, rfl, rfl, rfl, rfl⟩, by simp [mountEmptyDir]⟩

end Wrapfs

end FastMap
