import FastMap.LowerFs

/-!
# The stacked file system

Upper dentries and inodes, and how they are put over lower ones (`dmapfs_lookup.c`,
`dmapfs_super.c`, `dmapfs_dentry.c`). An upper dentry holds a lower path. An upper inode holds a
lower inode from `wrapfs_iget` to `wrapfs_evict_inode`, and is evicted as soon as its last reference
goes. What the kernel answers is an argument of every function.
-/

namespace FastMap

/-- An upper `struct dentry *`. -/
abbrev DentryId := ℕ
/-- An upper `struct inode *`. -/
abbrev InodeId := ℕ
/-- An upper `struct file *`. -/
abbrev UpperFile := ℕ

/-- `EXDEV` -/
def exdev : ℤ := 18
/-- `ESTALE` -/
def estale : ℤ := 116
/-- `ENOMEM` -/
def enomem : ℤ := 12
/-- `ENOENT` -/
def enoent : ℤ := 2

/-- The values of `i_op`. -/
inductive InodeOps where
  | dir
  | symlink
  | main
  deriving DecidableEq, Repr

/-- The values of `i_fop`; that of a special file is the kernel's. -/
inductive FileOps where
  | dir
  | main
  | special
  deriving DecidableEq, Repr

structure Dentry where
  parent : DentryId
  inode : Option InodeId
  /-- `d_fsdata`: nothing, or `struct wrapfs_dentry_info` with its `lower_path`. -/
  fsdata : Option (Option LowerPath)
  /-- Whether `wrapfs_dops` are its operations. -/
  dOp : Bool
  hashed : Bool
  deriving DecidableEq, Repr

/-- `struct wrapfs_inode_info` with its `vfs_inode`. -/
structure Inode where
  lower : Option LowerInodeId
  ino : ℕ
  mode : Option FileType
  iOp : Option InodeOps
  fOp : Option FileOps
  nlink : ℕ
  deriving DecidableEq, Repr

/-- The upper super block with its dentries, inodes and open files, and the references to inodes
and to super blocks. -/
structure Upper where
  dentries : Finset DentryId
  dentry : DentryId → Dentry
  inodes : Finset InodeId
  inode : InodeId → Inode
  /-- `i_count` of the upper inodes. -/
  inodeRefs : Multiset InodeId
  /-- References of the driver on lower inodes. -/
  lowerRefs : Multiset LowerInodeId
  files : Finset UpperFile
  /-- The path of the lower file of an open file. -/
  filePath : UpperFile → LowerPath
  /-- `s_fs_info`: nothing, or `struct wrapfs_sb_info` with its `lower_sb`. -/
  sbInfo : Option (Option SbId)
  /-- References of the driver in `s_active` of lower super blocks. -/
  superRefs : Multiset SbId

/-- A dentry pointer that a function returns. -/
inductive DentryRet where
  | null
  | dentry (a : DentryId)
  | err (e : ℤ)
  deriving DecidableEq, Repr

/-- `PTR_ERR` -/
def DentryRet.ptrErr : DentryRet → ℤ
  | .null => 0
  | .dentry a => a
  | .err e => e

/-- Whether `igrab` finds the lower inode alive, and whether `iget5_locked` gets memory. -/
structure IgetEnv where
  igrab : Bool
  alloc : Bool
  deriving DecidableEq, Repr

/-- What `d_splice_alias` finds: no other dentry of a directory, one that it moves, or a reason to
fail. -/
inductive Splice where
  | add
  | other (a : DentryId)
  | error (e : ℤ)
  deriving DecidableEq, Repr

structure InterposeEnv where
  iget : IgetEnv
  splice : Splice
  deriving DecidableEq, Repr

namespace Upper

/-! ### Inodes -/

def modifyDentry (s : Upper) (u : DentryId) (f : Dentry → Dentry) : Upper :=
  { s with dentry := Function.update s.dentry u (f (s.dentry u)) }

def modifyInode (s : Upper) (i : InodeId) (f : Inode → Inode) : Upper :=
  { s with inode := Function.update s.inode i (f (s.inode i)) }

/-- A dentry that is not in use. -/
def freshDentry (s : Upper) : DentryId := s.dentries.sup id + 1

/-- An inode that is not in use. -/
def freshInode (s : Upper) : InodeId := s.inodes.sup id + 1

/-- The inode of the cache for which `wrapfs_inode_test` says yes. -/
def cached (s : Upper) (li : LowerInodeId) : Option InodeId :=
  (s.inodes.filter fun i => (s.inode i).lower = some li).min

/-- `igrab` of a lower inode that is alive. -/
def igrab (s : Upper) (li : LowerInodeId) : Upper := { s with lowerRefs := li ::ₘ s.lowerRefs }

/-- `iput` of a lower inode. -/
def iputLower (s : Upper) (li : LowerInodeId) : Except Halt Upper :=
  if li ∈ s.lowerRefs then .ok { s with lowerRefs := s.lowerRefs.erase li } else .error .bug

/-- `iget5_locked`, with `wrapfs_alloc_inode` for a new inode. The answer says whether it is new;
`wrapfs_inode_set` leaves its lower inode empty. -/
def iget5Locked (s : Upper) (li : LowerInodeId) (alloc : Bool) : Option (InodeId × Bool) × Upper :=
  match s.cached li with
  | some i => (some (i, false), { s with inodeRefs := i ::ₘ s.inodeRefs })
  | none =>
    if alloc then
      (some (s.freshInode, true),
        { s with
          inodes := insert s.freshInode s.inodes
          inode := Function.update s.inode s.freshInode ⟨none, 0, none, none, none, 1⟩
          inodeRefs := s.freshInode ::ₘ s.inodeRefs })
    else (none, s)

/-- `i_op` of an inode over a lower one of this type. -/
def iOpOf : FileType → InodeOps
  | .dir => .dir
  | .lnk => .symlink
  | _ => .main

/-- `i_fop` of an inode over a lower one of this type, after `init_special_inode`. -/
def fOpOf : FileType → FileOps
  | .dir => .dir
  | .special => .special
  | _ => .main

/-- What `wrapfs_iget` makes of a new inode. -/
def initInode (L : LowerFs) (li : LowerInodeId) : Inode where
  lower := some li
  ino := L.iIno li
  mode := some (L.iMode li)
  iOp := some (iOpOf (L.iMode li))
  fOp := some (fOpOf (L.iMode li))
  nlink := L.iNlink li

/-- `wrapfs_iget` -/
def iget (s : Upper) (L : LowerFs) (li : LowerInodeId) (o : IgetEnv) :
    Except Halt (Except ℤ InodeId × Upper) :=
  if !o.igrab then .ok (.error (-estale), s)
  else
    match (s.igrab li).iget5Locked li o.alloc with
    | (none, s) => do
      let s ← s.iputLower li
      pure (.error (-enomem), s)
    | (some (i, false), s) => do
      let s ← s.iputLower li
      pure (.ok i, s)
    | (some (i, true), s) => .ok (.ok i, s.modifyInode i fun _ => initInode L li)

/-- `wrapfs_evict_inode` and `wrapfs_destroy_inode` -/
def evictInode (s : Upper) (i : InodeId) : Except Halt Upper :=
  let s' := { s with inodes := s.inodes.erase i }
  match (s.inode i).lower with
  | none => .ok s'
  | some li => s'.iputLower li

/-- `iput`. `drop_inode` is `generic_delete_inode`, so that an inode without references does not
stay in the cache. -/
def iput (s : Upper) (i : InodeId) : Except Halt Upper :=
  if i ∈ s.inodeRefs then
    let s := { s with inodeRefs := s.inodeRefs.erase i }
    if i ∈ s.inodeRefs then .ok s else s.evictInode i
  else .error .bug

/-! ### Putting a dentry over a lower one -/

/-- `__d_move` of `a` to the place of `u`. -/
def dMove (s : Upper) (a u : DentryId) : Upper :=
  let pa := (s.dentry a).parent
  let pu := (s.dentry u).parent
  let s := s.modifyDentry u fun d =>
    { d with parent := if pa = a then u else pa, hashed := false }
  s.modifyDentry a fun d => { d with parent := pu, hashed := true }

/-- `d_splice_alias`; the reference to the inode goes to the dentry, or is dropped. -/
def dSpliceAlias (s : Upper) (i : InodeId) (u : DentryId) : Splice → Except Halt (DentryRet × Upper)
  | .add =>
    if (s.dentry u).hashed then .error .bug
    else .ok (.null, s.modifyDentry u fun d => { d with inode := some i, hashed := true })
  | .other a =>
    if (s.dentry u).hashed then .error .bug
    else do
      let s ← s.iput i
      pure (.dentry a, s.dMove a u)
  | .error e =>
    if (s.dentry u).hashed then .error .bug
    else do
      let s ← s.iput i
      pure (.err e, s)

/-- `__wrapfs_interpose` -/
def interposeDentry (s : Upper) (L : LowerFs) (u : DentryId) (p : LowerPath) (o : InterposeEnv) :
    Except Halt (DentryRet × Upper) :=
  match L.dInode p.dentry, s.sbInfo with
  | some li, some sb =>
    if sb ≠ some (L.iSb li) then .ok (.err (-exdev), s)
    else do
      let (r, s) ← s.iget L li o.iget
      match r with
      | .error e => pure (.err e, s)
      | .ok i => s.dSpliceAlias i u o.splice
  | _, _ => .error .nullDeref

/-- `wrapfs_interpose` -/
def interpose (s : Upper) (L : LowerFs) (u : DentryId) (p : LowerPath) (o : InterposeEnv) :
    Except Halt (ℤ × Upper) := do
  let (r, s) ← s.interposeDentry L u p o
  pure (r.ptrErr, s)

/-- `fsstack_copy_attr_all` on the inode of a dentry; of the attributes only the number of links is
kept here. -/
def copyAttr (s : Upper) (L : LowerFs) (i : Option InodeId) (li : Option LowerInodeId) :
    Except Halt Upper :=
  match i, li with
  | some i, some li => .ok (s.modifyInode i fun x => { x with nlink := L.iNlink li })
  | _, _ => .error .nullDeref

end Upper

end FastMap
