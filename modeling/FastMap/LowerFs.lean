import FastMap.Lib.Fallible
import FastMap.Lib.Holdings
import FastMap.State

/-!
# The file system below

The driver is mounted over a directory of another file system. Of that file system it sees dentries
and inodes, and while it works on them it holds references and locks (`wrapfs.h`). The ledger
counts what the driver has taken and not given back; references of others do not occur in it. A
reference that is dropped without having been taken, or a lock that is released without being held,
does not get through.
-/

namespace FastMap

/-- A lower `struct dentry *`. -/
abbrev LowerDentry := ℕ
/-- A lower `struct inode *`. -/
abbrev LowerInodeId := ℕ
/-- A lower `struct vfsmount *`. -/
abbrev MntId := ℕ
/-- A lower `struct super_block *`. -/
abbrev SbId := ℕ

/-- `i_mode & S_IFMT` -/
inductive FileType where
  | dir
  | lnk
  | reg
  /-- A device, a pipe or a socket. -/
  | special
  deriving DecidableEq, Repr

/-- A lower `struct path`. -/
structure LowerPath where
  mnt : MntId
  dentry : LowerDentry
  deriving DecidableEq, Repr

/-- What the driver reads of the lower file system. The parent of a dentry is a directory that
exists, and a directory has no second dentry. -/
structure LowerFs where
  dInode : LowerDentry → Option LowerInodeId
  dParent : LowerDentry → LowerDentry
  iSb : LowerInodeId → SbId
  iIno : LowerInodeId → ℕ
  iMode : LowerInodeId → FileType
  iNlink : LowerInodeId → ℕ
  dInode_parent (d : LowerDentry) : (dInode (dParent d)).isSome
  dParent_unique {c d : LowerDentry} :
    dInode (dParent c) = dInode (dParent d) → dParent c = dParent d

/-- `d_inode(dget_parent(dentry))` -/
def LowerFs.parentInode (L : LowerFs) (d : LowerDentry) : LowerInodeId :=
  (L.dInode (L.dParent d)).get (L.dInode_parent d)

lemma LowerFs.dInode_dParent (L : LowerFs) (d : LowerDentry) :
    L.dInode (L.dParent d) = some (L.parentInode d) :=
  (Option.some_get _).symm

/-- Two directories are locked by two locks. -/
lemma LowerFs.parentInode_inj (L : LowerFs) {c d : LowerDentry} :
    L.parentInode c = L.parentInode d → L.dParent c = L.dParent d := by
  intro he
  refine L.dParent_unique ?_
  rw [L.dInode_dParent, L.dInode_dParent, he]

/-- References and locks of the driver on lower objects, taken and not given back. -/
structure Pins where
  dentries : Multiset LowerDentry
  mnts : Multiset MntId
  /-- Lower inodes whose `i_rwsem` is held. -/
  locks : Multiset LowerInodeId
  deriving DecidableEq

namespace Pins

/-- `dget` -/
def dget (s : Pins) (d : LowerDentry) : Pins := { s with dentries := d ::ₘ s.dentries }

/-- `dput` -/
def dput (s : Pins) (d : LowerDentry) : Except Halt Pins :=
  if d ∈ s.dentries then .ok { s with dentries := s.dentries.erase d } else .error .bug

/-- `mntget` -/
def mntget (s : Pins) (m : MntId) : Pins := { s with mnts := m ::ₘ s.mnts }

/-- `mntput` -/
def mntput (s : Pins) (m : MntId) : Except Halt Pins :=
  if m ∈ s.mnts then .ok { s with mnts := s.mnts.erase m } else .error .bug

/-- `path_get` -/
def pathGet (s : Pins) (p : LowerPath) : Pins := (s.mntget p.mnt).dget p.dentry

/-- `path_put` -/
def pathPut (s : Pins) (p : LowerPath) : Except Halt Pins := do
  let s ← s.dput p.dentry
  s.mntput p.mnt

/-- `inode_lock`; a thread that holds the lock already waits for itself. -/
def inodeLock (s : Pins) (i : LowerInodeId) : Except Halt Pins :=
  if i ∈ s.locks then .error .spin else .ok { s with locks := i ::ₘ s.locks }

/-- `inode_unlock(d_inode(dentry))` -/
def inodeUnlock (s : Pins) : Option LowerInodeId → Except Halt Pins
  | none => .error .nullDeref
  | some i => if i ∈ s.locks then .ok { s with locks := s.locks.erase i } else .error .bug

/-- `lock_parent`; it returns the parent. -/
def lockParent (s : Pins) (L : LowerFs) (d : LowerDentry) : Except Halt (LowerDentry × Pins) := do
  let s ← (s.dget (L.dParent d)).inodeLock (L.parentInode d)
  pure (L.dParent d, s)

/-- `unlock_dir` -/
def unlockDir (s : Pins) (L : LowerFs) (dir : LowerDentry) : Except Halt Pins := do
  let s ← s.inodeUnlock (L.dInode dir)
  s.dput dir

/-- `lock_rename` on the parents of two dentries. -/
def lockRename (s : Pins) (L : LowerFs) (d₁ d₂ : LowerDentry) : Except Halt Pins :=
  if L.dParent d₁ = L.dParent d₂ then s.inodeLock (L.parentInode d₁)
  else do
    let s ← s.inodeLock (L.parentInode d₁)
    s.inodeLock (L.parentInode d₂)

/-- `unlock_rename` -/
def unlockRename (s : Pins) (L : LowerFs) (dir₁ dir₂ : LowerDentry) : Except Halt Pins := do
  let s ← s.inodeUnlock (L.dInode dir₁)
  if dir₁ = dir₂ then pure s else s.inodeUnlock (L.dInode dir₂)

/-! ### Giving back -/

variable {s s' s₁ s₂ : Pins} {L L' : LowerFs} {d d₁ d₂ dir : LowerDentry} {i : LowerInodeId}
  {x : Option LowerInodeId} {p q : LowerPath}

lemma dput_eq_ok : s.dput d = .ok s' ↔
    d ∈ s.dentries ∧ s' = { s with dentries := s.dentries.erase d } := by
  simp only [dput]
  split_ifs with h
  · simp [h, eq_comm]
  · simp [h]

lemma inodeLock_eq_ok : s.inodeLock i = .ok s' ↔
    i ∉ s.locks ∧ s' = { s with locks := i ::ₘ s.locks } := by
  simp only [inodeLock]
  split_ifs with h
  · simp [h]
  · simp [h, eq_comm]

lemma inodeUnlock_eq_ok : s.inodeUnlock x = .ok s' ↔
    ∃ i, x = some i ∧ i ∈ s.locks ∧ s' = { s with locks := s.locks.erase i } := by
  cases x with
  | none => simp [inodeUnlock]
  | some i =>
    simp only [inodeUnlock]
    split_ifs with h
    · simp [h, eq_comm]
    · simp [h]

lemma dput_dget (s : Pins) (d : LowerDentry) : (s.dget d).dput d = .ok s := by
  simp [dget, dput]

lemma pathPut_pathGet (s : Pins) (p : LowerPath) : (s.pathGet p).pathPut p = .ok s := by
  simp [pathGet, pathPut, dget, dput, mntget, mntput, Except.ok_bind]

/-- References may be given back in another order than they were taken. -/
lemma pathPut_pathGet_pathGet (s : Pins) (p q : LowerPath) :
    ((s.pathGet p).pathGet q).pathPut p = .ok (s.pathGet q) := by
  simp [pathGet, pathPut, dget, dput, mntget, mntput, Except.ok_bind, Multiset.cons_swap q.dentry,
    Multiset.cons_swap q.mnt]

lemma dput_dget_dget (s : Pins) (d₁ d₂ : LowerDentry) :
    ((s.dget d₁).dget d₂).dput d₁ = .ok (s.dget d₂) := by
  simp [dget, dput, Multiset.cons_swap d₂]

/-- With `lock_parent` and `unlock_dir` around it, a call leaves the locks as they were; that the
directory still has its inode is what `inode_unlock` needs. -/
lemma lockParent_of_locks (h : s.locks = 0) (L : LowerFs) (d : LowerDentry) :
    s.lockParent L d = .ok (L.dParent d,
      { s.dget (L.dParent d) with locks := {L.parentInode d} }) := by
  simp [lockParent, inodeLock, dget, h, Except.ok_bind, Except.pure_eq_ok]

lemma unlockDir_of_lockParent (h : s.locks = 0) (hl : s.lockParent L d = .ok (dir, s₁))
    (hu : s₁.unlockDir L' dir = .ok s₂) : s₂ = s := by
  rw [lockParent_of_locks h] at hl
  obtain ⟨rfl, rfl⟩ : L.dParent d = dir ∧ _ = s₁ := by simpa using hl
  obtain ⟨s₃, h₃, hd⟩ := Except.bind_eq_ok.mp hu
  obtain ⟨i, -, hi, rfl⟩ := inodeUnlock_eq_ok.mp h₃
  obtain rfl : i = L.parentInode d := by simpa using hi
  obtain ⟨-, rfl⟩ := dput_eq_ok.mp hd
  simp [dget, ← h]

lemma unlockDir_lockParent (h : s.locks = 0)
    (hi : L'.dInode (L.dParent d) = some (L.parentInode d)) :
    { s.dget (L.dParent d) with locks := {L.parentInode d} }.unlockDir L' (L.dParent d) =
      .ok s := by
  simp [unlockDir, inodeUnlock, hi, dget, dput, Except.ok_bind, ← h]

/-- What is locked between `lock_rename` and `unlock_rename`. -/
def renameLocks (L : LowerFs) (d₁ d₂ : LowerDentry) : Multiset LowerInodeId :=
  if L.dParent d₁ = L.dParent d₂ then {L.parentInode d₁}
  else {L.parentInode d₂, L.parentInode d₁}

lemma locks_of_lockRename (h : s.locks = 0) (hl : s.lockRename L d₁ d₂ = .ok s₁) :
    s₁ = { s with locks := renameLocks L d₁ d₂ } := by
  simp only [lockRename] at hl
  split_ifs at hl with hp
  · obtain ⟨-, rfl⟩ := inodeLock_eq_ok.mp hl
    simp [renameLocks, hp, h]
  · obtain ⟨s₂, h₂, hl⟩ := Except.bind_eq_ok.mp hl
    obtain ⟨-, rfl⟩ := inodeLock_eq_ok.mp h₂
    obtain ⟨-, rfl⟩ := inodeLock_eq_ok.mp hl
    simp [renameLocks, hp, h]

/-- Since a directory has one dentry, nobody locks it twice. -/
lemma lockRename_of_locks (h : s.locks = 0) (L : LowerFs) (d₁ d₂ : LowerDentry) :
    s.lockRename L d₁ d₂ = .ok { s with locks := renameLocks L d₁ d₂ } := by
  simp only [lockRename, renameLocks]
  split_ifs with hp
  · simp [inodeLock, h]
  · have hne : L.parentInode d₂ ≠ L.parentInode d₁ := fun he => hp (L.parentInode_inj he.symm)
    simp [inodeLock, h, hne, Except.ok_bind]

lemma unlockRename_of_locks (h : s.locks = 0)
    (h₁ : L'.dInode (L.dParent d₁) = some (L.parentInode d₁))
    (h₂ : L'.dInode (L.dParent d₂) = some (L.parentInode d₂)) :
    { s with locks := renameLocks L d₁ d₂ }.unlockRename L' (L.dParent d₁) (L.dParent d₂) =
      .ok s := by
  simp only [unlockRename, renameLocks, h₁, h₂]
  split_ifs with hp
  · simp [inodeUnlock, Except.ok_bind, Except.pure_eq_ok, ← h]
  · have hne : L.parentInode d₂ ≠ L.parentInode d₁ := fun he => hp (L.parentInode_inj he.symm)
    have herase : (L.parentInode d₂ ::ₘ {L.parentInode d₁}).erase (L.parentInode d₁) =
        {L.parentInode d₂} := by
      rw [Multiset.erase_cons_tail _ hne]
      simp
    simp [inodeUnlock, herase, Except.ok_bind, ← h]

lemma unlockRename_of_lockRename (h : s.locks = 0) (hl : s.lockRename L d₁ d₂ = .ok s₁)
    (hu : s₁.unlockRename L' (L.dParent d₁) (L.dParent d₂) = .ok s₂) : s₂ = s := by
  rw [locks_of_lockRename h hl] at hu
  obtain ⟨s₃, h₃, hu⟩ := Except.bind_eq_ok.mp hu
  obtain ⟨i, -, hi, rfl⟩ := inodeUnlock_eq_ok.mp h₃
  simp only [renameLocks] at hi hu
  split_ifs at hu with hp
  · obtain rfl : i = L.parentInode d₁ := by simpa [hp] using hi
    obtain rfl : _ = s₂ := by simpa [Except.pure_eq_ok] using hu
    simp [← h]
  · -- whatever order the two are released in, nothing is left
    obtain ⟨j, -, hj, rfl⟩ := inodeUnlock_eq_ok.mp hu
    simp only [hp, if_false] at hi hj
    have hcard : Multiset.card
        ((({L.parentInode d₂, L.parentInode d₁} : Multiset LowerInodeId).erase i).erase j) = 0 := by
      rw [Multiset.card_erase_of_mem hj, Multiset.card_erase_of_mem hi]
      rfl
    rw [Multiset.card_eq_zero.mp hcard, ← h]

end Pins

end FastMap
