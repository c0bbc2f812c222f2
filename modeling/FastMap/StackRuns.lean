import FastMap.Lib.Run
import FastMap.StackCalls

/-!
# Requests of the VFS

What the VFS does around the calls: it allocates a dentry before `wrapfs_lookup` and drops it when
the lookup fails, it deletes and moves upper dentries after a success, and it lets go of dentries
that nobody uses. A run is a sequence of requests; between them others may change the lower file
system.
-/

namespace FastMap

/-- What `d_obtain_alias` does with the inode of a file handle. -/
inductive Obtain where
  /-- A new dentry without a name. -/
  | anon
  /-- A dentry that the inode has already. -/
  | other
  | nomem
  deriving DecidableEq, Repr

structure NfsEnv where
  /-- The answer of `ilookup`. -/
  ilookup : Option LowerInodeId
  iget : IgetEnv
  obtain : Obtain

/-- The calls that only hand on a path. -/
inductive PathRequest where
  | readlink (o : PathEnv)
  | getattr (call : LowerCall)
  | setxattr (o : PathEnv)
  | getxattr (o : PathEnv)
  | listxattr (o : PathEnv)
  | removexattr (o : PathEnv)
  | statfs (call : LowerCall)
  | fsync (call : LowerCall)
  | revalidate (rcu : Bool) (o : PathEnv)

inductive Request where
  | lookup (parent : DentryId) (o : LookupEnv)
  | create (dir : InodeId) (u : DentryId) (o : MakeEnv)
  | symlink (dir : InodeId) (u : DentryId) (o : MakeEnv)
  | mkdir (dir : InodeId) (u : DentryId) (o : MakeEnv)
  | mknod (dir : InodeId) (u : DentryId) (o : MakeEnv)
  | link (old new : DentryId) (o : MakeEnv)
  | unlink (dir : InodeId) (u : DentryId) (o : RemoveEnv) (sole : Bool)
  | rmdir (dir : InodeId) (u : DentryId) (call : LowerCall) (sole : Bool)
  | rename (oldDir : InodeId) (old : DentryId) (newDir : InodeId) (new : DentryId)
      (o : RenameEnv)
  | path (u : DentryId) (r : PathRequest)
  | setattr (u : DentryId) (o : SetattrCall)
  | openFile (f : UpperFile) (u : DentryId) (o : OpenEnv)
  | fileRelease (f : UpperFile)
  /-- A dentry that nobody uses. -/
  | kill (u : DentryId)
  /-- `wrapfs_fh_to_dentry` or `wrapfs_fh_to_parent` -/
  | nfs (o : NfsEnv)
  /-- Others change the lower file system. -/
  | others (fs : LowerFs)

namespace Wrapfs

/-! ### The VFS around the calls -/

/-- The inode of a dentry goes, with `iput`. -/
def unlinkInode (s : Wrapfs) (u : DentryId) : Except Halt Wrapfs :=
  match (s.up.dentry u).inode with
  | none => .ok s
  | some i => do
    let up ← (s.up.modifyDentry u fun d => { d with inode := none }).iput i
    pure { s with up := up }

/-- `d_release` of a dentry, if it has the operations of the driver. -/
def release (s : Wrapfs) (u : DentryId) : Except Halt Wrapfs :=
  if (s.up.dentry u).dOp then s.dRelease u else .ok s

/-- `__dentry_kill` -/
def kill (s : Wrapfs) (u : DentryId) : Except Halt Wrapfs := do
  let s ← s.unlinkInode u
  let s ← s.release u
  pure { s with up := { s.up with dentries := s.up.dentries.erase u } }

/-- `d_delete`; `sole` says whether the caller holds the only reference. -/
def dDelete (s : Wrapfs) (u : DentryId) (sole : Bool) : Except Halt Wrapfs :=
  if sole then s.unlinkInode u else .ok { s with toLayers := s.toLayers.dDrop u }

/-- `d_alloc` of a child. -/
def dAlloc (s : Wrapfs) (parent : DentryId) : Wrapfs :=
  { s with up := { s.up with
    dentries := insert s.up.freshDentry s.up.dentries
    dentry := Function.update s.up.dentry s.up.freshDentry ⟨parent, none, none, false, false⟩ } }

/-- A lookup of the VFS. The new dentry stays only if `wrapfs_lookup` returns `NULL`. -/
def vfsLookup (s : Wrapfs) (parent : DentryId) (o : LookupEnv) : Except Halt Wrapfs := do
  let u := s.up.freshDentry
  let (ret, s) ← (s.dAlloc parent).lookup u o
  if ret = .null then pure s else s.kill u

/-- `vfs_unlink` and `vfs_rmdir` of the upper level. -/
def vfsRemove (u : DentryId) (sole : Bool) : ℤ × Wrapfs → Except Halt Wrapfs
  | (err, s) => if err = 0 then s.dDelete u sole else .ok s

/-- `vfs_rename` of the upper level, with its `d_move`. -/
def vfsRename (s : Wrapfs) (oldDir : InodeId) (old : DentryId) (newDir : InodeId) (new : DentryId)
    (o : RenameEnv) : Except Halt Wrapfs := do
  let (err, s) ← s.rename oldDir old newDir new o
  pure (if err = 0 then { s with up := s.up.dMove old new } else s)

/-- `wrapfs_nfs_get_inode`, with its caller's `d_obtain_alias`. The reference that `ilookup` takes
is not given back. -/
def fhToDentry (s : Wrapfs) (o : NfsEnv) : Except Halt Wrapfs :=
  match o.ilookup with
  | none => .error .nullDeref
  | some li => do
    let (r, up) ← (s.up.igrab li).iget s.lower li o.iget
    let s := { s with up := up }
    match r, o.obtain with
    | .error _, _ => pure s
    | .ok i, .anon =>
      let u := s.up.freshDentry
      pure { s with up := { s.up with
        dentries := insert u s.up.dentries
        dentry := Function.update s.up.dentry u ⟨u, some i, none, false, false⟩ } }
    | .ok i, _ => do
      let up ← s.up.iput i
      pure { s with up := up }

/-! ### Runs -/

def execPath (s : Wrapfs) (u : DentryId) : PathRequest → Except Halt (ℤ × Wrapfs)
  | .readlink o => s.readlink u o
  | .getattr call => s.getattr u call
  | .setxattr o => s.setxattr u o
  | .getxattr o => s.getxattr u o
  | .listxattr o => s.listxattr u o
  | .removexattr o => s.removexattr u o
  | .statfs call => s.statfs u call
  | .fsync call => s.fsync u call
  | .revalidate rcu o => s.dRevalidate u rcu o

def exec (s : Wrapfs) : Request → Except Halt Wrapfs
  | .lookup parent o => s.vfsLookup parent o
  | .create dir u o => (s.create dir u o).map Prod.snd
  | .symlink dir u o => (s.symlink dir u o).map Prod.snd
  | .mkdir dir u o => (s.mkdir dir u o).map Prod.snd
  | .mknod dir u o => (s.mknod dir u o).map Prod.snd
  | .link old new o => (s.link old new o).map Prod.snd
  | .unlink dir u o sole => s.unlink dir u o >>= vfsRemove u sole
  | .rmdir dir u call sole => s.rmdir dir u call >>= vfsRemove u sole
  | .rename oldDir old newDir new o => s.vfsRename oldDir old newDir new o
  | .path u r => (s.execPath u r).map Prod.snd
  | .setattr u o => (s.setattr u o).map Prod.snd
  | .openFile f u o => (s.openFile f u o).map Prod.snd
  | .fileRelease f => s.fileRelease f
  | .kill u => s.kill u
  | .nfs o => s.fhToDentry o
  | .others fs => .ok { s with lower := fs }

/-- A dentry of a file that exists. -/
structure IsFile (s : Wrapfs) (u : DentryId) : Prop where
  mem : u ∈ s.up.dentries
  positive : (s.up.dentry u).inode.isSome

/-- A dentry that gets a name in a directory. -/
structure IsNew (s : Wrapfs) (dir : InodeId) (u : DentryId) (o : InterposeEnv) : Prop where
  mem : u ∈ s.up.dentries
  negative : (s.up.dentry u).inode = none
  parent : (s.up.dentry (s.up.dentry u).parent).inode = some dir
  other {a : DentryId} : o.splice = .other a → s.IsFile a ∧ a ≠ u

/-- A name of a directory. -/
structure IsEntry (s : Wrapfs) (dir : InodeId) (u : DentryId) : Prop where
  mem : u ∈ s.up.dentries
  positive : (s.up.dentry u).inode.isSome
  parent : (s.up.dentry (s.up.dentry u).parent).inode = some dir

/-- What the VFS sees to before it makes a request. -/
def Issued (s : Wrapfs) : Request → Prop
  | .lookup parent o => parent ∈ s.up.dentries ∧
      ∀ a, o.interpose.splice = .other a → s.IsFile a
  | .create dir u o => s.IsNew dir u o.interpose
  | .symlink dir u o => s.IsNew dir u o.interpose
  | .mkdir dir u o => s.IsNew dir u o.interpose
  | .mknod dir u o => s.IsNew dir u o.interpose
  | .link old new o => s.IsFile old ∧ ∃ dir, s.IsNew dir new o.interpose
  | .unlink dir u _ _ => s.IsEntry dir u
  | .rmdir dir u _ _ => s.IsEntry dir u
  | .rename oldDir old newDir new _ => s.IsEntry oldDir old ∧ new ∈ s.up.dentries ∧ new ≠ old ∧
      (s.up.dentry (s.up.dentry new).parent).inode = some newDir
  | .path u _ => s.IsFile u
  | .setattr u _ => s.IsFile u
  | .openFile f u _ => s.IsFile u ∧ f ∉ s.up.files
  | .fileRelease f => f ∈ s.up.files
  | .kill u => u ∈ s.up.dentries ∧ ∀ v ∈ s.up.dentries, (s.up.dentry v).parent = u → v = u
  | .nfs _ => True
  | .others _ => True

/-- A request that the VFS makes, and that returns. -/
def Steps (s : Wrapfs) (r : Request) (s' : Wrapfs) : Prop := s.Issued r ∧ s.exec r = .ok s'

end Wrapfs

/-- The reference to a lower inode that a request leaves behind: `wrapfs_nfs_get_inode` does not
give back what `ilookup` has taken. -/
def Request.leaked : Request → Multiset LowerInodeId
  | .nfs o => held o.ilookup
  | _ => 0

end FastMap
