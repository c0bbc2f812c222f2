import FastMap.State

/-!
# Page locks, queues and trees

The operations of `tagged_page.c`, `lpfifo_non_atomic.c`, `dfifo_non_atomic.c` and
`mmap_buffer_rbtree.c` on the state, and the three functions of the fifo buffer that carry a page
between the queues. The two queue implementations share their code up to the `buffer_id` they
write, so each operation is one definition over `Queue`.
-/

namespace FastMap

variable {C : Type*}

namespace State

/-! ### The page lock -/

/-- `trylock_tp`: 0 when the lock is taken, otherwise -1 (locked), -2 (wrong index) or -3 (not in
use). -/
def trylockTp (s : State C) (p : PageId) (index : Pgoff) : ℤ × State C :=
  if (s.pages p).inUse = false then (-3, s)
  else if index ≠ ulongMax ∧ (s.pages p).index ≠ index then (-2, s)
  else if (s.pages p).locked then (-1, s)
  else (0, s.modifyPage p fun t => { t with locked := true })

def unlockTp (s : State C) (p : PageId) : State C :=
  s.modifyPage p fun t => { t with locked := false }

/-! ### Queue operations -/

/-- `list_del_init(&p->qlist)`: the page leaves whatever list it is linked in. -/
def listDelInit (s : State C) (p : PageId) : State C :=
  { s with queues := fun q => { s.queues q with buffer := (s.queues q).buffer.erase p } }

def setBufferId (s : State C) (p : PageId) (b : BufferId) : State C :=
  s.modifyPage p fun t => { t with bufferId := b }

def modifyQueue (s : State C) (q : Queue) (f : Fifo → Fifo) : State C :=
  { s with queues := Function.update s.queues q (f (s.queues q)) }

/-- `size--` -/
def decSize (s : State C) (q : Queue) : State C :=
  s.modifyQueue q fun l => { l with size := ulongDec l.size }

/-- `remove` -/
def remove (s : State C) (q : Queue) (p : PageId) : State C :=
  ((s.listDelInit p).decSize q).setBufferId p .biNone

/-- `enqueue`, with its return value. -/
def enqueue (s : State C) (q : Queue) (p : PageId) : ℤ × State C :=
  if (s.queues q).maxSize < (s.queues q).size then (-1, { s with enqueueFailed := true })
  else
    (0, (s.modifyQueue q fun l =>
      { l with buffer := l.buffer ++ [p], size := ulongInc l.size }).setBufferId p q.bufferId)

/-- The page goes to the tail of its queue. -/
def rotate (s : State C) (q : Queue) (p : PageId) : State C :=
  (s.listDelInit p).modifyQueue q fun l => { l with buffer := l.buffer ++ [p] }

/-- `dequeue_if`: only the first page is tried; when `cond` refuses it, it moves to the tail. -/
def dequeueIf (s : State C) (q : Queue) (cond : State C → PageId → Bool × State C) :
    Option PageId × State C :=
  if (s.queues q).size = 0 then (none, s)
  else
    match (s.queues q).buffer with
    | [] => (none, s)
    | p :: _ =>
      match cond s p with
      | (true, s) => (some p, s.remove q p)
      | (false, s) => (none, s.rotate q p)

/-- `remove_if` -/
def removeIf (s : State C) (q : Queue) (p : PageId) (cond : State C → PageId → Bool × State C) :
    Bool × State C :=
  match cond s p with
  | (true, s) => (true, s.remove q p)
  | (false, s) => (false, s)

/-! ### Trees -/

/-- Lookup in the tree of a pvd that `offset` belongs to. -/
def treeLookup (e : Env C) (s : State C) (k : TreeKind) (v : PvdId) (offset : Pgoff) :
    Option PageId :=
  (s.trees ⟨k, v, offset % e.ncpus⟩).lookup offset

/-- `radix_tree_insert` and `tagged_rb_insert`; a taken key is left alone. -/
def treeInsert (e : Env C) (s : State C) (k : TreeKind) (v : PvdId) (offset : Pgoff) (p : PageId) :
    State C :=
  let t : TreeId := ⟨k, v, offset % e.ncpus⟩
  { s with trees := Function.update s.trees t ((s.trees t).insertNew offset p) }

/-- Deletion of a key from one tree. -/
def treeErase (s : State C) (t : TreeId) (offset : Pgoff) : State C :=
  { s with trees := Function.update s.trees t ((s.trees t).erase offset) }

/-- `fmap_radix_lookup` -/
def fmapRadixLookup (e : Env C) (s : State C) (v : PvdId) (offset : Pgoff) : Option PageId :=
  s.treeLookup e .rdx v offset

/-- `fmap_radix_insert`: `false` is the return value `-EEXIST`. -/
def fmapRadixInsert (e : Env C) (s : State C) (v : PvdId) (offset : Pgoff) (p : PageId) :
    Bool × State C :=
  ((s.fmapRadixLookup e v offset).isNone, s.treeInsert e .rdx v offset p)

/-- `remove_from_dirty_tree` -/
def removeFromDirtyTree (e : Env C) (s : State C) (p : PageId) : State C :=
  match (s.pages p).pvd with
  | none => s
  | some v =>
    s.treeErase ⟨.dirty, v, (s.pages p).index % e.ncpus⟩ (s.pages p).index

/-! ### The fifo buffer -/

def setDirty (s : State C) (p : PageId) (b : Bool) : State C :=
  s.modifyPage p fun t => { t with isDirty := b }

/-- `insert_page_fifo_buffer_t` -/
def insertPage (s : State C) (p : PageId) (clear : Bool) : State C :=
  let s := (s.enqueue (cleanQueue (s.pages p).index) p).2
  if clear then s.setDirty p false else s

/-- `move_page_c2d_fifo_buffer_t` -/
def movePageC2d (s : State C) (p : PageId) : State C :=
  let index := (s.pages p).index
  ((s.remove (cleanQueue index) p).enqueue (dirtyQueue index) p).2

/-- `move_page_d2c_fifo_buffer_t` -/
def movePageD2c (s : State C) (p : PageId) : State C :=
  let index := (s.pages p).index
  ((s.remove (dirtyQueue index) p).enqueue (cleanQueue index) p).2.setDirty p false

/-- `deq`, the condition under which `try_purge_pages_fast` takes a page. -/
def deq (s : State C) (p : PageId) : Bool × State C :=
  match (s.pages p).pvd with
  | none => (false, s)
  | some v =>
    if (s.pvds v).duringUnlink then (false, s)
    else
      match s.trylockTp p ulongMax with
      | (r, s) => (r == 0, s)

/-- `ev_deq`, the condition under which an evictor takes a page. -/
def evDeq (s : State C) (p : PageId) : Bool × State C :=
  match s.trylockTp p ulongMax with
  | (r, s) => (r == 0, s)

end State

end FastMap
