import FastMap.Binding
import FastMap.Stacking

/-!
# Calls of the stacked file system

The inode, dentry, super block and file operations that the VFS calls (`dmapfs_inode.c`,
`dmapfs_dentry.c`, `dmapfs_lookup.c`, `dmapfs_file.c`), as far as they deal with lower objects. Each
takes references and locks, does its work on the two file systems, and gives back what it took on
every way out. A call of the lower file system answers with a number and leaves a lower file system
behind.
-/

namespace FastMap

/-- `ECHILD` -/
def echild : ℤ := 10
/-- `ENOTEMPTY` -/
def enotempty : ℤ := 39
/-- `EOPNOTSUPP` -/
def eopnotsupp : ℤ := 95

/-- The answer of a call, and the lower file system after it. -/
structure LowerCall where
  err : ℤ
  fs : LowerFs

/-- The two file systems. -/
structure Layers where
  lower : LowerFs
  up : Upper

/-- The mounted file system, with the references and locks that it holds below. -/
structure Wrapfs extends Layers where
  pins : Pins

namespace Layers

/-- `wrapfs_interpose` -/
def interpose (s : Layers) (u : DentryId) (p : LowerPath) (o : InterposeEnv) :
    Except Halt (ℤ × Layers) := do
  let (err, up) ← s.up.interpose s.lower u p o
  pure (err, { s with up := up })

/-- `fsstack_copy_attr_all`, or `set_nlink` of the same value. -/
def copyAttr (s : Layers) (i : Option InodeId) (li : Option LowerInodeId) : Except Halt Layers := do
  let up ← s.up.copyAttr s.lower i li
  pure { s with up := up }

/-- `d_drop` -/
def dDrop (s : Layers) (u : DentryId) : Layers :=
  { s with up := s.up.modifyDentry u fun d => { d with hashed := false } }

/-- `clear_nlink` -/
def clearNlink (s : Layers) : Option InodeId → Layers
  | none => s
  | some i => { s with up := s.up.modifyInode i fun x => { x with nlink := 0 } }

/-- The lower inode of the inode of a dentry, `wrapfs_lower_inode(d_inode(dentry))`. -/
def lowerInodeOf (s : Layers) (u : DentryId) : Option LowerInodeId :=
  (s.up.dentry u).inode.bind fun i => (s.up.inode i).lower

end Layers

namespace Wrapfs

/-! ### Lower paths -/

/-- `wrapfs_get_lower_path`. Every caller follows the path, so that an empty one ends here. -/
def getLowerPath (s : Wrapfs) (u : DentryId) : Except Halt (LowerPath × Wrapfs) :=
  match (s.up.dentry u).fsdata with
  | some (some p) => .ok (p, { s with pins := s.pins.pathGet p })
  | _ => .error .nullDeref

/-- `wrapfs_put_lower_path` -/
def putLowerPath (s : Wrapfs) (p : LowerPath) : Except Halt Wrapfs := do
  let pins ← s.pins.pathPut p
  pure { s with pins := pins }

/-- `wrapfs_set_lower_path` -/
def setLowerPath (s : Wrapfs) (u : DentryId) (p : LowerPath) : Wrapfs :=
  { s with up := s.up.modifyDentry u fun d => { d with fsdata := d.fsdata.map fun _ => some p } }

/-- `wrapfs_put_reset_lower_path`; `path_put` of an empty path does nothing. -/
def putResetLowerPath (s : Wrapfs) (u : DentryId) : Except Halt Wrapfs :=
  match (s.up.dentry u).fsdata with
  | none => .error .nullDeref
  | some none => .ok s
  | some (some p) =>
    { s with up := s.up.modifyDentry u fun d => { d with fsdata := some none } }.putLowerPath p

/-! The calls take what they need, do their work, and have one way out, on which they give it
back. -/

/-- A call with the lower path of a dentry. -/
def withLowerPath {α : Type} (s : Wrapfs) (u : DentryId)
    (body : LowerPath → Wrapfs → Except Halt (α × Wrapfs)) : Except Halt (α × Wrapfs) := do
  let (p, s) ← s.getLowerPath u
  let (r, s) ← body p s
  let s ← s.putLowerPath p
  pure (r, s)

/-- Work with the lock of the parent, between `lock_parent` and `unlock_dir`. -/
def withParent (s : Wrapfs) (d : LowerDentry)
    (body : LowerDentry → Layers → Except Halt (ℤ × Layers)) : Except Halt (ℤ × Wrapfs) := do
  let (parent, pins) ← s.pins.lockParent s.lower d
  let (err, l) ← body parent s.toLayers
  let pins ← pins.unlockDir l.lower parent
  pure (err, ⟨l, pins⟩)

end Wrapfs

/-! ### New names -/

structure MakeEnv where
  call : LowerCall
  interpose : InterposeEnv

/-- The attributes that a directory takes over from its lower inode when it has got a new name;
`links` says whether the number of links is one of them. -/
def Layers.copyDir (links : Bool) (dir : InodeId) (s : Layers) : Except Halt Layers :=
  match (s.up.inode dir).lower with
  | none => .error .nullDeref
  | some li => if links then s.copyAttr (some dir) (some li) else .ok s

/-- What `wrapfs_create`, `wrapfs_symlink`, `wrapfs_mkdir` and `wrapfs_mknod` do with the lock of
the parent. -/
def Layers.makeEntry (links : Bool) (dir : InodeId) (u : DentryId) (p : LowerPath) (o : MakeEnv)
    (s : Layers) : Except Halt (ℤ × Layers) :=
  let s := { s with lower := o.call.fs }
  if o.call.err ≠ 0 then .ok (o.call.err, s)
  else do
    let (err, s) ← s.interpose u p o.interpose
    if err ≠ 0 then pure (err, s)
    else do
      let s ← s.copyDir links dir
      pure (0, s)

/-- What `wrapfs_link` does with the lock of the new parent. -/
def Layers.link (old new : DentryId) (p : LowerPath) (o : MakeEnv) (s : Layers) :
    Except Halt (ℤ × Layers) :=
  let s := { s with lower := o.call.fs }
  if o.call.err ≠ 0 ∨ s.lower.dInode p.dentry = none then .ok (o.call.err, s)
  else do
    let (err, s) ← s.interpose new p o.interpose
    if err ≠ 0 then pure (err, s)
    else do
      let s ← s.copyAttr (s.up.dentry old).inode (s.lowerInodeOf old)
      pure (0, s)

namespace Wrapfs

def makeEntry (links : Bool) (s : Wrapfs) (dir : InodeId) (u : DentryId) (o : MakeEnv) :
    Except Halt (ℤ × Wrapfs) :=
  s.withLowerPath u fun p s => s.withParent p.dentry fun _ => Layers.makeEntry links dir u p o

/-- `wrapfs_create`, around `vfs_create` -/
def create := makeEntry false

/-- `wrapfs_symlink`, around `vfs_symlink` -/
def symlink := makeEntry false

/-- `wrapfs_mkdir`, around `vfs_mkdir` -/
def mkdir := makeEntry true

/-- `wrapfs_mknod`, around `vfs_mknod` -/
def mknod := makeEntry false

/-- `wrapfs_link`, around `vfs_link`. The paths are put in the order in which they were got. -/
def link (s : Wrapfs) (old new : DentryId) (o : MakeEnv) : Except Halt (ℤ × Wrapfs) := do
  let (oldPath, s) ← s.getLowerPath old
  let (newPath, s) ← s.getLowerPath new
  let (err, s) ← s.withParent newPath.dentry fun _ => Layers.link old new newPath o
  let s ← s.putLowerPath oldPath
  let s ← s.putLowerPath newPath
  pure (err, s)

end Wrapfs

/-! ### Names that go -/

structure RemoveEnv where
  call : LowerCall
  /-- `DCACHE_NFSFS_RENAMED` -/
  nfsRenamed : Bool

/-- `err` of `wrapfs_unlink` after the call: a file that NFS has renamed counts as deleted. -/
def RemoveEnv.err (o : RemoveEnv) : ℤ :=
  if o.call.err = -ebusy ∧ o.nfsRenamed then 0 else o.call.err

/-- What `wrapfs_unlink` does with the lock of the parent; `vfs_unlink` gets the lower inode of
`dir`. The cached pages of the file are not part of this model. -/
def Layers.unlink (dir : InodeId) (u : DentryId) (p : LowerPath) (o : RemoveEnv) (s : Layers) :
    Except Halt (ℤ × Layers) :=
  let s := { s with lower := o.call.fs }
  if (s.up.inode dir).lower = none then .error .nullDeref
  else if o.err ≠ 0 then .ok (o.err, s)
  else do
    let s ← s.copyAttr (s.up.dentry u).inode (s.lowerInodeOf u)
    if s.lower.dInode p.dentry = none then throw .nullDeref
    else pure (0, s.dDrop u)

/-- What `wrapfs_rmdir` does with the lock of the parent. -/
def Layers.rmdir (dir : InodeId) (u : DentryId) (call : LowerCall) (parent : LowerDentry)
    (s : Layers) : Except Halt (ℤ × Layers) :=
  let s := { s with lower := call.fs }
  if call.err ≠ 0 then .ok (call.err, s)
  else do
    let s := (s.dDrop u).clearNlink (s.up.dentry u).inode
    let s ← s.copyAttr (some dir) (s.lower.dInode parent)
    pure (0, s)

namespace Wrapfs

/-- `wrapfs_unlink`, around `vfs_unlink`. It takes one more reference to the lower dentry. -/
def unlink (s : Wrapfs) (dir : InodeId) (u : DentryId) (o : RemoveEnv) :
    Except Halt (ℤ × Wrapfs) :=
  s.withLowerPath u fun p s => do
    let (err, s) ← { s with pins := s.pins.dget p.dentry }.withParent p.dentry fun _ =>
      Layers.unlink dir u p o
    let pins ← s.pins.dput p.dentry
    pure (err, { s with pins := pins })

/-- `wrapfs_rmdir`, around `vfs_rmdir` -/
def rmdir (s : Wrapfs) (dir : InodeId) (u : DentryId) (call : LowerCall) :
    Except Halt (ℤ × Wrapfs) :=
  s.withLowerPath u fun p s => s.withParent p.dentry (Layers.rmdir dir u call)

end Wrapfs

/-! ### Renaming -/

structure RenameEnv where
  flags : Bool
  /-- What `lock_rename` returns. -/
  trap : Option LowerDentry
  call : LowerCall

/-- What `wrapfs_rename` does with the locks of both parents. -/
def Layers.rename (oldDir newDir : InodeId) (old new : LowerDentry) (o : RenameEnv) (s : Layers) :
    Except Halt (ℤ × Layers) :=
  let oldParent := s.lower.dParent old
  let newParent := s.lower.dParent new
  if o.trap = some old then .ok (-einval, s)
  else if o.trap = some new then .ok (-enotempty, s)
  else
    let s := { s with lower := o.call.fs }
    if o.call.err ≠ 0 then .ok (o.call.err, s)
    else do
      let s ← s.copyAttr (some newDir) (s.lower.dInode newParent)
      if newDir ≠ oldDir then do
        let s ← s.copyAttr (some oldDir) (s.lower.dInode oldParent)
        pure (0, s)
      else pure (0, s)

/-- `wrapfs_rename`, around `vfs_rename` -/
def Wrapfs.rename (s : Wrapfs) (oldDir : InodeId) (old : DentryId) (newDir : InodeId)
    (new : DentryId) (o : RenameEnv) : Except Halt (ℤ × Wrapfs) :=
  if o.flags then .ok (-einval, s)
  else do
    let (oldPath, s) ← s.getLowerPath old
    let (newPath, s) ← s.getLowerPath new
    let oldParent := s.lower.dParent oldPath.dentry
    let newParent := s.lower.dParent newPath.dentry
    let pins ← ((s.pins.dget oldParent).dget newParent).lockRename s.lower
      oldPath.dentry newPath.dentry
    let (err, l) ← s.toLayers.rename oldDir newDir oldPath.dentry newPath.dentry o
    let pins ← pins.unlockRename l.lower oldParent newParent
    let pins ← pins.dput oldParent
    let pins ← pins.dput newParent
    let s ← Wrapfs.putLowerPath ⟨l, pins⟩ oldPath
    let s ← s.putLowerPath newPath
    pure (err, s)

/-! ### Attributes -/

structure PathEnv where
  /-- Whether the lower inode has the operation. -/
  supported : Bool
  call : LowerCall

/-- Where a call takes the attributes from that it copies after a success. -/
inductive AttrSource where
  | none
  /-- `d_inode(lower_path.dentry)` -/
  | dentry
  /-- `wrapfs_lower_inode(inode)` -/
  | inode
  deriving DecidableEq, Repr

def Layers.copyAttrFrom (s : Layers) (u : DentryId) (p : LowerPath) :
    AttrSource → Except Halt Layers
  | .none => .ok s
  | .dentry => s.copyAttr (s.up.dentry u).inode (s.lower.dInode p.dentry)
  | .inode => s.copyAttr (s.up.dentry u).inode (s.lowerInodeOf u)

/-- What a call does that is handed on with the lower path of its dentry. It returns `unsupported`
where the lower inode lacks the operation. -/
def Layers.pathCall (unsupported : ℤ) (source : AttrSource) (u : DentryId) (o : PathEnv)
    (p : LowerPath) (s : Layers) : Except Halt (ℤ × Layers) :=
  if !o.supported then .ok (unsupported, s)
  else
    let s := { s with lower := o.call.fs }
    if o.call.err ≠ 0 then .ok (o.call.err, s)
    else do
      let s ← s.copyAttrFrom u p source
      pure (0, s)

namespace Wrapfs

def pathCall (unsupported : ℤ) (source : AttrSource) (s : Wrapfs) (u : DentryId) (o : PathEnv) :
    Except Halt (ℤ × Wrapfs) :=
  s.withLowerPath u fun p s => do
    let (err, l) ← s.toLayers.pathCall unsupported source u o p
    pure (err, ⟨l, s.pins⟩)

/-- `wrapfs_readlink`; its answer is a length. -/
def readlink := pathCall (-einval) .none

/-- `wrapfs_getattr` -/
def getattr (s : Wrapfs) (u : DentryId) (call : LowerCall) := pathCall 0 .dentry s u ⟨true, call⟩

/-- `wrapfs_setxattr` -/
def setxattr := pathCall (-eopnotsupp) .dentry

/-- `wrapfs_getxattr` -/
def getxattr := pathCall (-eopnotsupp) .none

/-- `wrapfs_listxattr` -/
def listxattr := pathCall (-eopnotsupp) .none

/-- `wrapfs_removexattr` -/
def removexattr := pathCall (-eopnotsupp) .inode

/-- `wrapfs_statfs` -/
def statfs (s : Wrapfs) (u : DentryId) (call : LowerCall) := pathCall 0 .none s u ⟨true, call⟩

/-- The part of `wrapfs_fsync` after the pages of the file. -/
def fsync (s : Wrapfs) (u : DentryId) (call : LowerCall) := pathCall 0 .none s u ⟨true, call⟩

/-- `wrapfs_d_revalidate`; a lower dentry without the operation is valid. -/
def dRevalidate (s : Wrapfs) (u : DentryId) (rcu : Bool) (o : PathEnv) : Except Halt (ℤ × Wrapfs) :=
  if rcu then .ok (-echild, s) else pathCall 1 .none s u o

end Wrapfs

structure SetattrCall where
  prepare : ℤ
  newsizeOk : ℤ
  call : LowerCall

namespace Wrapfs

/-- `notify_change` with the lock of the lower inode. -/
def notifyChange (s : Wrapfs) (d : LowerDentry) (call : LowerCall) : Except Halt Wrapfs :=
  match s.lower.dInode d with
  | none => .error .nullDeref
  | some li => do
    let pins ← s.pins.inodeLock li
    let pins ← pins.inodeUnlock (call.fs.dInode d)
    pure { s with pins := pins, lower := call.fs }

/-- `wrapfs_setattr` -/
def setattr (s : Wrapfs) (u : DentryId) (o : SetattrCall) : Except Halt (ℤ × Wrapfs) :=
  if o.prepare ≠ 0 then .ok (o.prepare, s)
  else
    s.withLowerPath u fun p s =>
      if o.newsizeOk ≠ 0 then .ok (o.newsizeOk, s)
      else do
        let s ← s.notifyChange p.dentry o.call
        if o.call.err ≠ 0 then pure (o.call.err, s)
        else do
          let l ← s.toLayers.copyAttrFrom u p .inode
          pure (0, ⟨l, s.pins⟩)

end Wrapfs

/-! ### Looking up a name -/

structure LookupEnv where
  /-- Whether `new_dentry_private_data` gets memory. -/
  privateData : Bool
  /-- The answer of `vfs_path_lookup`, and the path that it finds. -/
  lookup : ℤ
  found : LowerPath
  interpose : InterposeEnv
  /-- A negative lower dentry, from `d_lookup` or `d_alloc`; nothing, if there is no memory. -/
  negative : Option LowerDentry

namespace Wrapfs

/-- `d_set_d_op(dentry, &wrapfs_dops)` -/
def setDOp (s : Wrapfs) (u : DentryId) : Wrapfs :=
  { s with up := s.up.modifyDentry u fun d => { d with dOp := true } }

/-- `wrapfs_set_lower_path` of a path that comes with a reference. -/
def takeLowerPath (s : Wrapfs) (u : DentryId) (p : LowerPath) : Wrapfs :=
  { s with pins := s.pins.pathGet p }.setLowerPath u p

/-- `__wrapfs_lookup`, with the lower path of the parent. A missing name is no error. -/
def lookupDentry (s : Wrapfs) (u : DentryId) (parent : LowerPath) (o : LookupEnv) :
    Except Halt (DentryRet × Wrapfs) :=
  let s := s.setDOp u
  if o.lookup = 0 then do
    -- `vfs_path_lookup` hands over its reference to the path
    let s := s.takeLowerPath u o.found
    let (ret, up) ← s.up.interposeDentry s.lower u o.found o.interpose
    let s := { s with up := up }
    match ret with
    | .err e => do
      let s ← s.putResetLowerPath u
      pure (.err e, s)
    | ret => pure (ret, s)
  else if o.lookup ≠ -enoent then .ok (.err o.lookup, s)
  else
    match o.negative with
    | none => .ok (.err (-enomem), s)
    | some d =>
      .ok (.null, s.takeLowerPath u ⟨parent.mnt, d⟩)

/-- `new_dentry_private_data` that gets memory. -/
def newDentryPrivateData (s : Wrapfs) (u : DentryId) : Wrapfs :=
  { s with up := s.up.modifyDentry u fun d => { d with fsdata := some none } }

/-- `wrapfs_lookup` -/
def lookup (s : Wrapfs) (u : DentryId) (o : LookupEnv) : Except Halt (DentryRet × Wrapfs) :=
  s.withLowerPath (s.up.dentry u).parent fun parent s =>
    if !o.privateData then .ok (.err (-enomem), s)
    else (s.newDentryPrivateData u).lookupDentry u parent o

/-- `wrapfs_d_release` -/
def dRelease (s : Wrapfs) (u : DentryId) : Except Halt Wrapfs := do
  let s ← s.putResetLowerPath u
  pure { s with up := s.up.modifyDentry u fun d => { d with fsdata := none } }

end Wrapfs

/-! ### Open files -/

structure OpenEnv where
  /-- Whether the two calls of `kzalloc` get memory. -/
  kzalloc : Bool
  /-- The answer of `dentry_open`. -/
  dentryOpen : ℤ
  /-- Whether `ino_pvd_cache` has a pvd for the lower file. -/
  cached : Bool
  /-- Whether the `kzalloc` of `create_and_add_file_pvd` gets memory. -/
  pvdKzalloc : Bool

/-- For a regular file `wrapfs_open` follows the lower file before it is known to be one, and
`create_and_add_file_pvd` the new pvd, which it does not check either. -/
def OpenEnv.followsNull (o : OpenEnv) : Prop :=
  o.dentryOpen ≠ 0 ∨ o.cached = false ∧ o.pvdKzalloc = false

instance (o : OpenEnv) : Decidable o.followsNull :=
  inferInstanceAs (Decidable (_ ∨ _))

namespace Wrapfs

/-- `wrapfs_open`. Which pvd the file gets is not part of this model. -/
def openFile (s : Wrapfs) (f : UpperFile) (u : DentryId) (o : OpenEnv) : Except Halt (ℤ × Wrapfs) :=
  if !(s.up.dentry u).hashed then .ok (-enoent, s)
  else if !o.kzalloc then .ok (-enomem, s)
  else do
    let (p, s) ← s.getLowerPath u
    -- `dentry_open` takes a reference to the path for the lower file
    let s := if o.dentryOpen = 0 then { s with pins := s.pins.pathGet p } else s
    let s ← s.putLowerPath p
    match (s.up.dentry u).inode with
    | none => throw .nullDeref
    | some i =>
      if (s.up.inode i).mode = some .reg ∧ o.followsNull then throw .nullDeref
      else if o.dentryOpen = 0 then do
        let up := { s.up with
          files := insert f s.up.files
          filePath := Function.update s.up.filePath f p }
        let l ← Layers.copyAttr { s.toLayers with up := up } (some i) (up.inode i).lower
        pure (0, ⟨l, s.pins⟩)
      else pure (o.dentryOpen, s)

/-- `wrapfs_file_release`, as far as the lower file goes: `fput` drops the path of the file. -/
def fileRelease (s : Wrapfs) (f : UpperFile) : Except Halt Wrapfs :=
  { s with up := { s.up with files := s.up.files.erase f } }.putLowerPath (s.up.filePath f)

end Wrapfs

end FastMap
