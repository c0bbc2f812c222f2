import FastMap.BitmapIoctls
import FastMap.State

/-!
# Binding a raw device

`bind_set` of `main.c`: a request on the control device binds a minor to a block device, or unbinds
it. Next to the slot stand the resources that it takes and gives back: the references of the block
devices, the reference of the module, and the allocations. An allocation of positive size succeeds,
and so does `blkdev_get`.
-/

namespace FastMap

/-- `dev_t` -/
abbrev DevT := BitVec 32

/-- `MKDEV` of two 64-bit numbers, stored in a `dev_t`. -/
def mkdev (major minor : BitVec 64) : DevT := ((major <<< 20) ||| minor).setWidth 32

/-- `MAJOR` -/
def majorOf (dev : DevT) : BitVec 64 := (dev >>> 20).setWidth 64

/-- `MINOR` -/
def minorOf (dev : DevT) : BitVec 64 := (dev &&& 0xFFFFF#32).setWidth 64

/-- `struct raw_device_data`, as far as `bind_set` uses it; an allocation is known by its number. -/
structure RawDeviceData where
  inuse : ℤ
  devId : DevT
  binding : Option DevT
  path : String
  deviceSizeInPages : ℕ
  deviceMeta : Option ℕ
  bitmapSize : ℕ
  bitmap : Option ℕ
  deriving DecidableEq, Repr

/-- The slot of a minor, and what has been taken and given back. -/
structure Binds where
  rawdev : RawDeviceData
  /-- The references of every block device, taken minus dropped. -/
  refs : DevT → ℤ
  moduleRefs : ℤ
  /-- The number of the next allocation. -/
  next : ℕ
  /-- The allocations that `meta` has pointed to. -/
  metas : List ℕ
  /-- The arguments of `vfree`. -/
  freed : List ℕ

/-- `struct dmap_config_request`, and whether the caller has `CAP_SYS_ADMIN`. -/
structure BindRequest where
  major : BitVec 64
  minor : BitVec 64
  path : String
  capable : Bool
  deriving DecidableEq, Repr

/-- The minor of the requests, the number of minors, and the capacity of every block device in
sectors. -/
structure BindEnv where
  number : ℤ
  maxRawMinors : ℤ
  capacity : DevT → ℕ

/-- `EPERM` -/
def eperm : ℤ := 1
/-- `EBUSY` -/
def ebusy : ℤ := 16

namespace BindRequest

def dev (rq : BindRequest) : DevT := mkdev rq.major rq.minor

/-- The checks of `bind_set` before it looks at the slot. -/
def check (E : BindEnv) (rq : BindRequest) : ℤ :=
  if E.number ≤ 0 ∨ E.maxRawMinors ≤ E.number then -einval
  else if majorOf rq.dev ≠ rq.major ∨ minorOf rq.dev ≠ rq.minor then -einval
  else if !rq.capable then -eperm
  else if majorOf rq.dev = 0 ∧ rq.dev ≠ 0 then -einval
  else 0

end BindRequest

namespace Binds

/-! ### The calls of the kernel -/

def addRefs (s : Binds) (d : DevT) (n : ℤ) : Binds :=
  { s with refs := Function.update s.refs d (s.refs d + n) }

/-- `bdput` -/
def bdput (s : Binds) (d : DevT) : Binds := s.addRefs d (-1)

/-- `bdget`, and `bdgrab` -/
def bdget (s : Binds) (d : DevT) : Binds := s.addRefs d 1

/-- `blkdev_put`, which drops the reference that `blkdev_get` has kept. -/
def blkdevPut (s : Binds) : Option DevT → Except Halt Binds
  | none => .error .nullDeref
  | some d => .ok (s.addRefs d (-1))

/-- `module_put` and `__module_get` -/
def addModuleRefs (s : Binds) (n : ℤ) : Binds := { s with moduleRefs := s.moduleRefs + n }

/-- `vmalloc`; an allocation of size 0 is refused. -/
def vmalloc (s : Binds) (size : ℕ) : Option ℕ × Binds :=
  if size = 0 then (none, s) else (some s.next, { s with next := s.next + 1 })

def vfree (s : Binds) (a : ℕ) : Binds := { s with freed := s.freed ++ [a] }

/-! ### `bind_set` -/

/-- What happens to an old binding, before the request is looked at. -/
def putOld (s : Binds) : Binds :=
  match s.rawdev.binding with
  | some d => (s.bdput d).addModuleRefs (-1)
  | none => s

/-- `vfree(rawdev->meta)`, unless there is no metadata. The pointer stays. -/
def freeMeta (s : Binds) : Binds :=
  match s.rawdev.deviceMeta with
  | some a => s.vfree a
  | none => s

/-- The branch for device 0. -/
def unbind (s : Binds) : Except Halt Binds :=
  let s := s.freeMeta
  match s.blkdevPut s.rawdev.binding with
  | .error x => .error x
  | .ok s => .ok { s with rawdev := { s.rawdev with binding := none } }

/-- `rawdev->meta = vmalloc(...)` -/
def allocMeta (s : Binds) (pages : ℕ) : Binds :=
  match s.vmalloc pages with
  | (m, s) => { s with rawdev := { s.rawdev with deviceMeta := m }, metas := s.metas ++ m.toList }

/-- The bitmap of the device, which is cleared before the pointer to it is looked at. -/
def allocBitmap (s : Binds) (pages : ℕ) : Binds :=
  match s.vmalloc pages with
  | (b, s) => { s with rawdev := { s.rawdev with bitmapSize := pages, bitmap := b } }

/-- The branch for another device: `bdget`, `bdgrab`, and `blkdev_get` keeps what `bdgrab` took. -/
def bind (E : BindEnv) (s : Binds) (dev : DevT) (path : String) : Binds :=
  let s := (s.bdget dev).bdget dev
  let pages := E.capacity dev >>> 3
  let s := { s with
    rawdev := { s.rawdev with
      binding := some dev, devId := dev, path := path, deviceSizeInPages := pages } }
  ((s.allocMeta pages).allocBitmap pages).addModuleRefs 1

/-- `bind_set`, with its return value. -/
def bindSet (E : BindEnv) (s : Binds) (rq : BindRequest) : Except Halt (ℤ × Binds) :=
  if rq.check E ≠ 0 then .ok (rq.check E, s)
  else if s.rawdev.inuse ≠ 0 then .ok (-ebusy, s)
  else if rq.dev = 0 then s.putOld.unbind.map fun s => (0, s)
  else .ok (0, s.putOld.bind E rq.dev rq.path)

/-- A slot that has not been bound, as `vzalloc` gives it. -/
def init : Binds where
  rawdev := ⟨0, 0, none, "", 0, none, 0, none⟩
  refs _ := 0
  moduleRefs := 0
  next := 0
  metas := []
  freed := []

/-! ### Balance -/

/-- What the slot holds is what one bound device needs, or nothing. -/
structure Balanced (s : Binds) : Prop where
  freed_nodup : s.freed.Nodup
  released {a : ℕ} : a ∈ s.metas → (a ∈ s.freed ↔
    ¬ (s.rawdev.binding.isSome = true ∧ s.rawdev.deviceMeta = some a))
  refs_eq (d : DevT) : s.refs d = if s.rawdev.binding = some d then 2 else 0
  moduleRefs_eq : s.moduleRefs = if s.rawdev.binding.isSome then 1 else 0

/-- Every request of a sequence is answered, and leaves the slot balanced. -/
def StaysBalanced (E : BindEnv) : Binds → List BindRequest → Prop
  | _, [] => True
  | s, rq :: rqs => ∃ r s', s.bindSet E rq = .ok (r, s') ∧ s'.Balanced ∧ s'.StaysBalanced E rqs

/-- A device is bound only to a free minor, and only a bound minor is unbound; `bound` says how it
is at the start. Requests that do not pass the checks do not count. -/
def Alternates (E : BindEnv) : Bool → List BindRequest → Prop
  | _, [] => True
  | bound, rq :: rqs =>
    if rq.check E ≠ 0 then Alternates E bound rqs
    else if rq.dev = 0 then bound = true ∧ Alternates E false rqs
    else bound = false ∧ Alternates E true rqs

/-- The slot between two requests of such a sequence. -/
structure Sound (s : Binds) : Prop where
  balanced : s.Balanced
  inuse : s.rawdev.inuse = 0
  metas_lt {a : ℕ} : a ∈ s.metas → a < s.next
  freed_mem {a : ℕ} : a ∈ s.freed → a ∈ s.metas
  meta_mem {a : ℕ} : s.rawdev.deviceMeta = some a → a ∈ s.metas

variable {E : BindEnv} {s s' : Binds} {d dev : DevT} {path : String}

lemma sound_init : init.Sound where
  balanced :=
    { freed_nodup := .nil
      released := fun ha => absurd ha List.not_mem_nil
      refs_eq := fun _ => rfl
      moduleRefs_eq := rfl }
  inuse := rfl
  metas_lt ha := absurd ha List.not_mem_nil
  freed_mem ha := absurd ha List.not_mem_nil
  meta_mem ha := by simp [init] at ha

/-- The new metadata, if the device has a page at all. -/
def newMeta (E : BindEnv) (s : Binds) (dev : DevT) : Option ℕ :=
  if E.capacity dev >>> 3 = 0 then none else some s.next

/-- The slot and the resources after a bind. -/
structure Bound (E : BindEnv) (s : Binds) (dev : DevT) (s' : Binds) : Prop where
  binding : s'.rawdev.binding = some dev
  inuse : s'.rawdev.inuse = s.rawdev.inuse
  meta_eq : s'.rawdev.deviceMeta = newMeta E s dev
  refs : s'.refs = Function.update s.refs dev (s.refs dev + 2)
  moduleRefs : s'.moduleRefs = s.moduleRefs + 1
  metas : s'.metas = s.metas ++ (newMeta E s dev).toList
  freed : s'.freed = s.freed
  new_lt {a : ℕ} : newMeta E s dev = some a → a < s'.next
  next_le : s.next ≤ s'.next

lemma bound_bind (E : BindEnv) (s : Binds) (dev : DevT) (path : String) :
    Bound E s dev (s.bind E dev path) := by
  have hrefs : s.refs dev + 1 + 1 = s.refs dev + 2 := by ring
  constructor
  all_goals
    simp only [bind, bdget, addRefs, allocMeta, allocBitmap, vmalloc, newMeta, addModuleRefs]
    split_ifs <;> simp [hrefs] <;> omega

/-- A free minor is bound. -/
lemma Sound.bind (h : s.Sound) (hb : s.rawdev.binding = none) :
    (s.putOld.bind E dev path).Sound := by
  have hold : s.putOld = s := by simp only [putOld, hb]
  rw [hold]
  have hs := bound_bind E s dev path
  have hmem : ∀ {a}, a ∈ (s.bind E dev path).metas ↔ a ∈ s.metas ∨ newMeta E s dev = some a := by
    intro a
    rw [hs.metas, List.mem_append, Option.mem_toList]
  -- a new allocation is not one of the old ones
  have hfresh : ∀ {a}, newMeta E s dev = some a → a ∉ s.metas := by
    intro a ha hm
    have hlt := h.metas_lt hm
    simp only [newMeta] at ha
    split_ifs at ha
    obtain rfl : s.next = a := by simpa using ha
    exact lt_irrefl _ hlt
  refine ⟨⟨?_, ?_, ?_, ?_⟩, hs.inuse.trans h.inuse, ?_, ?_, ?_⟩
  · rw [hs.freed]
    exact h.balanced.freed_nodup
  · intro a ha
    rw [hs.freed, hs.binding, hs.meta_eq, Option.isSome_some, eq_self_iff_true, true_and]
    rcases hmem.mp ha with hm | hn
    · have hall : a ∈ s.freed := by
        rw [h.balanced.released hm, hb]
        simp
      exact ⟨fun _ hn => hfresh hn hm, fun _ => hall⟩
    · exact ⟨fun hf => absurd (h.freed_mem hf) (hfresh hn), fun hne => absurd hn hne⟩
  · intro d
    have h0 : ∀ d, s.refs d = 0 := by
      intro d
      rw [h.balanced.refs_eq, hb]
      rfl
    rw [hs.refs, hs.binding]
    by_cases hd : d = dev
    · subst hd
      rw [Function.update_self, h0, if_pos rfl]
      rfl
    · rw [Function.update_of_ne hd, h0, if_neg fun heq => hd (Option.some.inj heq).symm]
  · rw [hs.moduleRefs, hs.binding, h.balanced.moduleRefs_eq, hb]
    rfl
  · intro a ha
    rcases hmem.mp ha with hm | hn
    · exact (h.metas_lt hm).trans_le hs.next_le
    · exact hs.new_lt hn
  · intro a ha
    rw [hs.freed] at ha
    exact hmem.mpr (Or.inl (h.freed_mem ha))
  · intro a ha
    rw [hs.meta_eq] at ha
    exact hmem.mpr (Or.inr ha)

/-- A bound minor keeps a reference of its old device when it is bound again. -/
lemma Sound.not_balanced_rebind (h : s.Sound) (hb : s.rawdev.binding = some d) :
    ¬ (s.putOld.bind E dev path).Balanced := by
  intro hbal
  have hs := bound_bind E s.putOld dev path
  have hold : s.putOld.refs d = 1 := by
    simp only [putOld, hb, bdput, addRefs, addModuleRefs, Function.update_self]
    rw [h.balanced.refs_eq, if_pos hb]
    rfl
  have hd := hbal.refs_eq d
  rw [hs.binding, hs.refs] at hd
  by_cases hdev : d = dev
  · subst hdev
    rw [Function.update_self, hold, if_pos rfl] at hd
    exact absurd hd (by decide)
  · rw [Function.update_of_ne hdev, hold, if_neg fun heq => hdev (Option.some.inj heq).symm] at hd
    exact absurd hd (by decide)

lemma freeMeta_eq (s : Binds) :
    s.freeMeta = { s with freed := s.freed ++ s.rawdev.deviceMeta.toList } := by
  simp only [freeMeta]
  cases hm : s.rawdev.deviceMeta with
  | none => simp
  | some a => simp [vfree]

/-- The slot and the resources after an unbind. -/
def unbound (s : Binds) (d : DevT) : Binds :=
  { s with
    rawdev := { s.rawdev with binding := none }
    refs := Function.update s.refs d (s.refs d - 2)
    moduleRefs := s.moduleRefs - 1
    freed := s.freed ++ s.rawdev.deviceMeta.toList }

lemma unbind_of_bound (hb : s.rawdev.binding = some d) : s.putOld.unbind = .ok (s.unbound d) := by
  have hrefs : s.refs d + -1 + -1 = s.refs d - 2 := by ring
  simp only [putOld, hb, unbind, freeMeta_eq, bdput, addRefs, addModuleRefs, blkdevPut, unbound,
    Function.update_self, Function.update_idem, hrefs, Int.sub_eq_add_neg]

/-- A bound minor is unbound. -/
lemma Sound.unbound (h : s.Sound) (hb : s.rawdev.binding = some d) : (s.unbound d).Sound := by
  -- the metadata has not been freed before
  have hmeta : ∀ {a}, s.rawdev.deviceMeta = some a → a ∉ s.freed := by
    intro a ha
    rw [h.balanced.released (h.meta_mem ha), hb, not_not]
    exact ⟨rfl, ha⟩
  have hmem : ∀ {a}, a ∈ (s.unbound d).freed ↔ a ∈ s.freed ∨ s.rawdev.deviceMeta = some a := by
    intro a
    rw [Binds.unbound, List.mem_append, Option.mem_toList]
  refine ⟨⟨?_, ?_, ?_, ?_⟩, h.inuse, h.metas_lt, ?_, h.meta_mem⟩
  · rw [Binds.unbound]
    cases hm : s.rawdev.deviceMeta with
    | none => simpa using h.balanced.freed_nodup
    | some a => simpa using h.balanced.freed_nodup.concat (hmeta hm)
  · intro a ha
    rw [hmem, h.balanced.released ha, hb]
    simp only [Binds.unbound, Option.isSome_some, Option.isSome_none, true_and, Bool.false_eq_true,
      false_and, not_false_eq_true, iff_true]
    exact (em _).symm
  · intro d'
    simp only [Binds.unbound, reduceCtorEq, if_false]
    by_cases hd : d' = d
    · subst hd
      rw [Function.update_self, h.balanced.refs_eq, if_pos hb]
      rfl
    · rw [Function.update_of_ne hd, h.balanced.refs_eq, hb,
        if_neg fun heq => hd (Option.some.inj heq).symm]
  · simp only [Binds.unbound, h.balanced.moduleRefs_eq, hb]
    rfl
  · intro a ha
    rcases hmem.mp ha with hf | hm
    · exact h.freed_mem hf
    · exact h.meta_mem hm

/-- A free minor cannot be unbound. -/
lemma unbind_of_free (hb : s.rawdev.binding = none) : s.putOld.unbind = .error .nullDeref := by
  simp only [putOld, hb, unbind, freeMeta_eq, blkdevPut]

/-! ### The main result -/

/-- A request that is answered. -/
lemma staysBalanced_cons {rq : BindRequest} {rqs : List BindRequest} {r : ℤ}
    (hs : s.bindSet E rq = .ok (r, s')) :
    s.StaysBalanced E (rq :: rqs) ↔ s'.Balanced ∧ s'.StaysBalanced E rqs := by
  constructor
  · rintro ⟨r', t, ht, hrest⟩
    obtain ⟨-, rfl⟩ := Prod.mk.inj (Except.ok.inj (hs.symm.trans ht))
    exact hrest
  · intro hrest
    exact ⟨r, s', hs, hrest⟩

/-- The answers to a request on a slot that is not in use. -/
lemma bindSet_of_check {rq : BindRequest} (hc : rq.check E ≠ 0) :
    s.bindSet E rq = .ok (rq.check E, s) := by
  rw [bindSet, if_pos hc]

lemma Sound.bindSet_unbind (h : s.Sound) {rq : BindRequest} (hc : rq.check E = 0)
    (hdev : rq.dev = 0) : s.bindSet E rq = s.putOld.unbind.map fun s => (0, s) := by
  rw [bindSet, if_neg (not_not.mpr hc), if_neg (not_not.mpr h.inuse), if_pos hdev]

lemma Sound.bindSet_bind (h : s.Sound) {rq : BindRequest} (hc : rq.check E = 0)
    (hdev : rq.dev ≠ 0) : s.bindSet E rq = .ok (0, s.putOld.bind E rq.dev rq.path) := by
  rw [bindSet, if_neg (not_not.mpr hc), if_neg (not_not.mpr h.inuse), if_neg hdev]

/-- From a sound slot on, a sequence of requests stays balanced if and only if it alternates. -/
lemma Sound.staysBalanced_iff (h : s.Sound) (rqs : List BindRequest) :
    s.StaysBalanced E rqs ↔ Alternates E s.rawdev.binding.isSome rqs := by
  induction rqs generalizing s with
  | nil => exact Iff.rfl
  | cons rq rqs ih =>
    rw [Alternates]
    by_cases hc : rq.check E = 0
    · rw [if_neg (not_not.mpr hc)]
      by_cases hdev : rq.dev = 0
      · have hans := h.bindSet_unbind hc hdev
        rw [if_pos hdev]
        cases hb : s.rawdev.binding with
        | none =>
          -- nothing is bound, and the call does not return
          rw [unbind_of_free hb] at hans
          refine iff_of_false ?_ fun hf => Bool.false_ne_true hf.1
          rintro ⟨r, s', hs', -⟩
          exact absurd (hans.symm.trans hs') (by simp [Except.map])
        | some d =>
          rw [unbind_of_bound hb] at hans
          have hsound := h.unbound hb
          rw [staysBalanced_cons hans, ih hsound]
          exact and_congr_left' (iff_of_true hsound.balanced rfl)
      · rw [if_neg hdev, staysBalanced_cons (h.bindSet_bind hc hdev)]
        cases hb : s.rawdev.binding with
        | none =>
          have hsound : (s.putOld.bind E rq.dev rq.path).Sound := h.bind hb
          rw [ih hsound, (bound_bind E s.putOld rq.dev rq.path).binding]
          exact and_congr_left' (iff_of_true hsound.balanced rfl)
        | some d =>
          -- the reference of the old device stays
          exact iff_of_false (fun hf => h.not_balanced_rebind hb hf.1) fun hf => by simp at hf
    · rw [if_pos hc, staysBalanced_cons (bindSet_of_check hc), ih h]
      exact and_iff_right h.balanced

/-- A sequence of requests on a minor is answered, and leaves it balanced after each request, if
and only if no device is bound to a bound minor and no free minor is unbound. -/
theorem bind_balanced_iff (E : BindEnv) (rqs : List BindRequest) :
    init.StaysBalanced E rqs ↔ Alternates E false rqs :=
  sound_init.staysBalanced_iff rqs

/-- Eight pages on every device. -/
def eightPages : BindEnv := ⟨1, 4, fun _ => 64⟩

/-- Two devices are bound one after the other. -/
def rebind : List BindRequest := [⟨8, 0, "/dev/sda", true⟩, ⟨8, 16, "/dev/sdb", true⟩]

theorem rebind_not_balanced :
    ¬ ∀ (E : BindEnv) (rqs : List BindRequest), init.StaysBalanced E rqs := by
  intro h
  have halt := (sound_init.staysBalanced_iff rebind).mp (h eightPages rebind)
  -- both requests pass the checks, and the second one finds the minor bound
  simp only [rebind, Alternates] at halt
  rw [if_neg (by decide), if_neg (by decide), if_neg (by decide), if_neg (by decide)] at halt
  exact absurd halt.2.1 (by decide)

end Binds

end FastMap
