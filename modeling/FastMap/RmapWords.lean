import FastMap.Lib.WordField
import FastMap.Files

/-!
# The words of a reverse mapping

A slot of a tagged page is two words: `__vma` holds the area and, in bit 0, whether the slot is
valid; `__vaddr` holds the address, in bits 11:7 the position of the slot in its page, and in bits
6:0 the processor whose list the slot is on. The driver reads and assigns these fields one by one
(`pvr_*` in `tagged_page.c`).
-/

namespace FastMap

/-- The words of `struct pr_vma_rmap`. -/
structure Pvr where
  vaddrWord : BitVec 64
  vmaWord : BitVec 64
  deriving DecidableEq, Repr

namespace Pvr

/-! ### The accessors -/

def isValid (p : Pvr) : Bool := p.vmaWord &&& 0x01#64 == 1#64

def mkValid (p : Pvr) : Pvr := { p with vmaWord := p.vmaWord ||| 0x01#64 }

def mkInvalid (p : Pvr) : Pvr := { p with vmaWord := p.vmaWord &&& ~~~0x01#64 }

def getCpu (p : Pvr) : BitVec 64 := p.vaddrWord &&& 0x7F#64

def setCpu (p : Pvr) (cpu : BitVec 64) : Pvr :=
  { p with vaddrWord := (p.vaddrWord &&& ~~~0x7F#64) ||| cpu }

def getIdx (p : Pvr) : BitVec 64 := (p.vaddrWord &&& 0x0F80#64) >>> 7

def setIdx (p : Pvr) (idx : BitVec 64) : Pvr :=
  let cpu := p.vaddrWord &&& 0x7F#64
  let vaddr := p.vaddrWord &&& ~~~0xFFF#64
  { p with vaddrWord := vaddr ||| (idx <<< 7) ||| cpu }

def getVaddr (p : Pvr) : BitVec 64 := p.vaddrWord &&& ~~~0xFFF#64

def setVaddr (p : Pvr) (vaddr : BitVec 64) : Pvr :=
  { p with vaddrWord := vaddr ||| (p.vaddrWord &&& 0xFFF#64) }

def getVma (p : Pvr) : BitVec 64 := p.vmaWord &&& ~~~0x01#64

def setVma (p : Pvr) (vma : BitVec 64) : Pvr :=
  { p with vmaWord := vma ||| (p.vmaWord &&& 0x01#64) }

/-- `sizeof(struct pr_vma_rmap)`: the two words and a `struct list_head`. -/
def size : BitVec 64 := 32#64

/-- `pvr_get_owner` of a slot at an address. -/
def getOwner (p : Pvr) (addr : BitVec 64) : BitVec 64 := addr - p.getIdx * size

-- The masks of the source are of type `int`; the complements are negative and are sign-extended.
example : (~~~0x01#32).signExtend 64 = ~~~0x01#64 ∧ (~~~0x7F#32).signExtend 64 = ~~~0x7F#64 ∧
    (~~~0xFFF#32).signExtend 64 = ~~~0xFFF#64 := by decide

/-! ### Reading back what was assigned

Every assignment is one to a field of its word, so a lemma holds for a field and an assignment: it
reads the new value or what it read before. -/

section

variable (p : Pvr)

lemma vaddrWord_setCpu (cpu : BitVec 64) :
    (p.setCpu cpu).vaddrWord = WordField.set 0x7F#64 p.vaddrWord cpu := rfl

lemma vaddrWord_setIdx (idx : BitVec 64) :
    (p.setIdx idx).vaddrWord = WordField.set 0x0F80#64 p.vaddrWord (idx <<< 7) := by
  have hmask : ~~~0x0F80#64 = ~~~0xFFF#64 ||| 0x7F#64 := by decide
  simp only [setIdx, WordField.set, hmask, BitVec.and_or_distrib_left]
  ac_rfl

lemma vaddrWord_setVaddr (vaddr : BitVec 64) :
    (p.setVaddr vaddr).vaddrWord = WordField.set (~~~0xFFF#64) p.vaddrWord vaddr := by
  simp only [setVaddr, WordField.set, BitVec.not_not]
  ac_rfl

lemma vmaWord_setVma (vma : BitVec 64) :
    (p.setVma vma).vmaWord = WordField.set (~~~0x01#64) p.vmaWord vma := by
  simp only [setVma, WordField.set, BitVec.not_not]
  ac_rfl

lemma vmaWord_mkValid : p.mkValid.vmaWord = WordField.set 0x01#64 p.vmaWord 1#64 :=
  (WordField.set_mask p.vmaWord).symm

lemma vmaWord_mkInvalid : p.mkInvalid.vmaWord = WordField.set 0x01#64 p.vmaWord 0#64 := by
  simp [mkInvalid, WordField.set]

@[simp] lemma isValid_mkValid : p.mkValid.isValid = true := by
  rw [isValid, vmaWord_mkValid, WordField.set_and_self _ (by decide)]
  rfl

@[simp] lemma getVma_mkValid : p.mkValid.getVma = p.getVma := by
  rw [getVma, vmaWord_mkValid, WordField.set_and_of_disjoint _ (by decide) (by decide)]
  rfl

@[simp] lemma isValid_mkInvalid : p.mkInvalid.isValid = false := by
  rw [isValid, vmaWord_mkInvalid, WordField.set_and_self _ (by decide)]
  rfl

@[simp] lemma getVma_mkInvalid : p.mkInvalid.getVma = p.getVma := by
  rw [getVma, vmaWord_mkInvalid, WordField.set_and_of_disjoint _ (by decide) (by decide)]
  rfl

@[simp] lemma isValid_setVma {vma : BitVec 64} (h : vma &&& ~~~0x01#64 = vma) :
    (p.setVma vma).isValid = p.isValid := by
  rw [isValid, vmaWord_setVma, WordField.set_and_of_disjoint _ h (by decide)]
  rfl

@[simp] lemma getVma_setVma {vma : BitVec 64} (h : vma &&& ~~~0x01#64 = vma) :
    (p.setVma vma).getVma = vma := by
  rw [getVma, vmaWord_setVma, WordField.set_and_self _ h]

@[simp] lemma getCpu_setCpu {cpu : BitVec 64} (h : cpu &&& 0x7F#64 = cpu) :
    (p.setCpu cpu).getCpu = cpu := by
  rw [getCpu, vaddrWord_setCpu, WordField.set_and_self _ h]

@[simp] lemma getIdx_setCpu {cpu : BitVec 64} (h : cpu &&& 0x7F#64 = cpu) :
    (p.setCpu cpu).getIdx = p.getIdx := by
  rw [getIdx, vaddrWord_setCpu, WordField.set_and_of_disjoint _ h (by decide)]
  rfl

@[simp] lemma getVaddr_setCpu {cpu : BitVec 64} (h : cpu &&& 0x7F#64 = cpu) :
    (p.setCpu cpu).getVaddr = p.getVaddr := by
  rw [getVaddr, vaddrWord_setCpu, WordField.set_and_of_disjoint _ h (by decide)]
  rfl

/-- A position below 32 fits into its field. -/
lemma idx_field {idx : BitVec 64} (h : idx.toNat < 32) : idx <<< 7 &&& 0x0F80#64 = idx <<< 7 := by
  have hmask : 0x0F80#64 = 31#64 <<< 7 := by decide
  have hlow : idx &&& 31#64 = idx := WordField.and_low_mask (b := 5) (by decide) h
  rw [hmask, ← BitVec.shiftLeft_and_distrib, hlow]

lemma getIdx_setIdx_of_lt {idx : BitVec 64} (h : idx.toNat < 32) : (p.setIdx idx).getIdx = idx := by
  rw [getIdx, vaddrWord_setIdx, WordField.set_and_self _ (idx_field h)]
  apply BitVec.eq_of_toNat_eq
  rw [BitVec.toNat_ushiftRight, BitVec.toNat_shiftLeft, Nat.shiftLeft_eq, Nat.shiftRight_eq_div_pow]
  omega

lemma getCpu_setIdx_of_lt {idx : BitVec 64} (h : idx.toNat < 32) :
    (p.setIdx idx).getCpu = p.getCpu := by
  rw [getCpu, vaddrWord_setIdx, WordField.set_and_of_disjoint _ (idx_field h) (by decide)]
  rfl

lemma getVaddr_setIdx_of_lt {idx : BitVec 64} (h : idx.toNat < 32) :
    (p.setIdx idx).getVaddr = p.getVaddr := by
  rw [getVaddr, vaddrWord_setIdx, WordField.set_and_of_disjoint _ (idx_field h) (by decide)]
  rfl

/-- There are fewer slots than positions. -/
lemma slot_lt (i : Fin maxRmapsPerPage) : (BitVec.ofNat 64 i).toNat < 32 := by
  revert i
  decide

@[simp] lemma getIdx_setIdx (i : Fin maxRmapsPerPage) :
    (p.setIdx (BitVec.ofNat 64 i)).getIdx = BitVec.ofNat 64 i :=
  getIdx_setIdx_of_lt p (slot_lt i)

@[simp] lemma getCpu_setIdx (i : Fin maxRmapsPerPage) :
    (p.setIdx (BitVec.ofNat 64 i)).getCpu = p.getCpu :=
  getCpu_setIdx_of_lt p (slot_lt i)

@[simp] lemma getVaddr_setIdx (i : Fin maxRmapsPerPage) :
    (p.setIdx (BitVec.ofNat 64 i)).getVaddr = p.getVaddr :=
  getVaddr_setIdx_of_lt p (slot_lt i)

@[simp] lemma getVaddr_setVaddr {vaddr : BitVec 64} (h : vaddr &&& ~~~0xFFF#64 = vaddr) :
    (p.setVaddr vaddr).getVaddr = vaddr := by
  rw [getVaddr, vaddrWord_setVaddr, WordField.set_and_self _ h]

@[simp] lemma getIdx_setVaddr {vaddr : BitVec 64} (h : vaddr &&& ~~~0xFFF#64 = vaddr) :
    (p.setVaddr vaddr).getIdx = p.getIdx := by
  rw [getIdx, vaddrWord_setVaddr, WordField.set_and_of_disjoint _ h (by decide)]
  rfl

@[simp] lemma getCpu_setVaddr {vaddr : BitVec 64} (h : vaddr &&& ~~~0xFFF#64 = vaddr) :
    (p.setVaddr vaddr).getCpu = p.getCpu := by
  rw [getCpu, vaddrWord_setVaddr, WordField.set_and_of_disjoint _ h (by decide)]
  rfl

end

/-! ### The sequences of assignments -/

/-- What `dmap_add_or_update_rmap` writes into a free slot under `rmap_lock`. -/
def record (p : Pvr) (i : Fin maxRmapsPerPage) (vaddr vma : BitVec 64) : Pvr :=
  ((((p.setIdx (BitVec.ofNat 64 i)).setVaddr vaddr).setVma vma).setCpu 0#64).mkValid

/-- What `free_page_lock` writes into slot `i`. -/
def clear (p : Pvr) (i : Fin maxRmapsPerPage) : Pvr :=
  (((p.mkInvalid.setVaddr 0#64).setVma 0#64).setCpu 0#64).setIdx (BitVec.ofNat 64 i)

/-- What `clear_tagged_page_meta_data` writes into slot `i`. -/
def init (i : Fin maxRmapsPerPage) : Pvr :=
  ((((mkInvalid ⟨0#64, 0#64⟩).setIdx (BitVec.ofNat 64 i)).setVaddr 0#64).setVma 0#64).setCpu 0#64

/-- The fields of a slot that a fault has recorded and put on a list. -/
structure Records (p : Pvr) (i : Fin maxRmapsPerPage) (vaddr vma : BitVec 64) (cpu : ℕ) : Prop where
  valid : p.isValid = true
  vma_eq : p.getVma = vma
  vaddr_eq : p.getVaddr = vaddr
  idx_eq : p.getIdx = BitVec.ofNat 64 i
  cpu_eq : p.getCpu.toNat = cpu

lemma cpu_field {cpu : ℕ} (h : cpu < 128) :
    BitVec.ofNat 64 cpu &&& 0x7F#64 = BitVec.ofNat 64 cpu := by
  apply WordField.and_low_mask (b := 7) (by decide)
  rw [BitVec.toNat_ofNat]
  omega

/-- A valid slot of the area is recorded once `__vaddr` has been assigned the index, the address and
the processor. -/
lemma Records.of_vaddrWord {p q : Pvr} {i : Fin maxRmapsPerPage} {vaddr vma : BitVec 64} {cpu : ℕ}
    (hvalid : q.isValid = true) (hvma : q.getVma = vma) (ha : vaddr &&& ~~~0xFFF#64 = vaddr)
    (hcpu : cpu < 128)
    (hword : q.vaddrWord = ((((p.setIdx (BitVec.ofNat 64 i)).setVaddr vaddr).setCpu 0#64).setCpu
      (BitVec.ofNat 64 cpu)).vaddrWord) : q.Records i vaddr vma cpu := by
  have hc := cpu_field hcpu
  have h0 : (0#64 : BitVec 64) &&& 0x7F#64 = 0#64 := by decide
  refine ⟨hvalid, hvma, ?_, ?_, ?_⟩
  · rw [getVaddr, hword]
    change Pvr.getVaddr _ = vaddr
    rw [getVaddr_setCpu _ hc, getVaddr_setCpu _ h0, getVaddr_setVaddr _ ha]
  · rw [getIdx, hword]
    change Pvr.getIdx _ = _
    rw [getIdx_setCpu _ hc, getIdx_setCpu _ h0, getIdx_setVaddr _ ha, getIdx_setIdx]
  · rw [getCpu, hword]
    change (Pvr.getCpu _).toNat = cpu
    rw [getCpu_setCpu _ hc, BitVec.toNat_ofNat]
    apply Nat.mod_eq_of_lt
    omega

lemma records_setCpu_record (p : Pvr) (i : Fin maxRmapsPerPage) {vaddr vma : BitVec 64} {cpu : ℕ}
    (ha : vaddr &&& ~~~0xFFF#64 = vaddr) (hv : vma &&& ~~~0x01#64 = vma) (hcpu : cpu < 128) :
    ((p.record i vaddr vma).setCpu (BitVec.ofNat 64 cpu)).Records i vaddr vma cpu := by
  apply Records.of_vaddrWord (p := p)
  · exact isValid_mkValid _
  · change (((((p.setIdx _).setVaddr vaddr).setVma vma).setCpu 0#64).mkValid).getVma = vma
    rw [getVma_mkValid]
    exact getVma_setVma _ hv
  · exact ha
  · exact hcpu
  · rfl

lemma isValid_clear (p : Pvr) (i : Fin maxRmapsPerPage) : (p.clear i).isValid = false := by
  change (p.mkInvalid.setVma 0#64).isValid = false
  rw [isValid_setVma _ (by decide), isValid_mkInvalid]

/-- The slot of a page at address `base` finds its page again. -/
lemma Records.getOwner {p : Pvr} {i : Fin maxRmapsPerPage} {vaddr vma : BitVec 64} {cpu : ℕ}
    (h : p.Records i vaddr vma cpu) (base : BitVec 64) :
    p.getOwner (base + BitVec.ofNat 64 i * size) = base := by
  rw [Pvr.getOwner, h.idx_eq, BitVec.add_sub_cancel]

/-! ### Every sequence of assignments -/

/-- The calls that assign to a field. -/
inductive Assign where
  | setVaddr (vaddr : BitVec 64)
  | setCpu (cpu : BitVec 64)
  | setIdx (idx : BitVec 64)
  | setVma (vma : BitVec 64)
  | mkValid
  | mkInvalid
  deriving DecidableEq, Repr

/-- The value fits into its field: an address is page aligned, an area is 2-byte aligned. -/
def Assign.Fits : Assign → Prop
  | .setVaddr vaddr => 4096 ∣ vaddr.toNat
  | .setCpu cpu => cpu.toNat < 128
  | .setIdx idx => idx.toNat < 32
  | .setVma vma => 2 ∣ vma.toNat
  | .mkValid => True
  | .mkInvalid => True

instance : DecidablePred Assign.Fits
  | .setVaddr vaddr => inferInstanceAs (Decidable (4096 ∣ vaddr.toNat))
  | .setCpu cpu => inferInstanceAs (Decidable (cpu.toNat < 128))
  | .setIdx idx => inferInstanceAs (Decidable (idx.toNat < 32))
  | .setVma vma => inferInstanceAs (Decidable (2 ∣ vma.toNat))
  | .mkValid => inferInstanceAs (Decidable True)
  | .mkInvalid => inferInstanceAs (Decidable True)

def assign (p : Pvr) : Assign → Pvr
  | .setVaddr vaddr => p.setVaddr vaddr
  | .setCpu cpu => p.setCpu cpu
  | .setIdx idx => p.setIdx idx
  | .setVma vma => p.setVma vma
  | .mkValid => p.mkValid
  | .mkInvalid => p.mkInvalid

/-! The value that a call assigns to each of the fields, if it assigns to the field at all. -/

def Assign.vaddr? : Assign → Option (BitVec 64)
  | .setVaddr vaddr => some vaddr
  | _ => none

def Assign.cpu? : Assign → Option (BitVec 64)
  | .setCpu cpu => some cpu
  | _ => none

def Assign.idx? : Assign → Option (BitVec 64)
  | .setIdx idx => some idx
  | _ => none

def Assign.vma? : Assign → Option (BitVec 64)
  | .setVma vma => some vma
  | _ => none

def Assign.valid? : Assign → Option Bool
  | .mkValid => some true
  | .mkInvalid => some false
  | _ => none

section assign

variable (p : Pvr) {op : Assign} (h : op.Fits)

include h

lemma getVaddr_assign : (p.assign op).getVaddr = op.vaddr?.getD p.getVaddr := by
  cases op with
  | setVaddr vaddr => exact getVaddr_setVaddr p (WordField.and_high_mask (b := 12) (by decide) h)
  | setCpu cpu => exact getVaddr_setCpu p (WordField.and_low_mask (b := 7) (by decide) h)
  | setIdx idx => exact getVaddr_setIdx_of_lt p h
  | setVma vma => rfl
  | mkValid => rfl
  | mkInvalid => rfl

lemma getCpu_assign : (p.assign op).getCpu = op.cpu?.getD p.getCpu := by
  cases op with
  | setVaddr vaddr => exact getCpu_setVaddr p (WordField.and_high_mask (b := 12) (by decide) h)
  | setCpu cpu => exact getCpu_setCpu p (WordField.and_low_mask (b := 7) (by decide) h)
  | setIdx idx => exact getCpu_setIdx_of_lt p h
  | setVma vma => rfl
  | mkValid => rfl
  | mkInvalid => rfl

lemma getIdx_assign : (p.assign op).getIdx = op.idx?.getD p.getIdx := by
  cases op with
  | setVaddr vaddr => exact getIdx_setVaddr p (WordField.and_high_mask (b := 12) (by decide) h)
  | setCpu cpu => exact getIdx_setCpu p (WordField.and_low_mask (b := 7) (by decide) h)
  | setIdx idx => exact getIdx_setIdx_of_lt p h
  | setVma vma => rfl
  | mkValid => rfl
  | mkInvalid => rfl

lemma getVma_assign : (p.assign op).getVma = op.vma?.getD p.getVma := by
  cases op with
  | setVaddr vaddr => rfl
  | setCpu cpu => rfl
  | setIdx idx => rfl
  | setVma vma => exact getVma_setVma p (WordField.and_high_mask (b := 1) (by decide) h)
  | mkValid => exact getVma_mkValid p
  | mkInvalid => exact getVma_mkInvalid p

lemma isValid_assign : (p.assign op).isValid = op.valid?.getD p.isValid := by
  cases op with
  | setVaddr vaddr => rfl
  | setCpu cpu => rfl
  | setIdx idx => rfl
  | setVma vma => exact isValid_setVma p (WordField.and_high_mask (b := 1) (by decide) h)
  | mkValid => exact isValid_mkValid p
  | mkInvalid => exact isValid_mkInvalid p

end assign

/-- From any two words on, after every sequence of assignments each field holds the last value that
was assigned to it, and what the words held if there is none; and slot `i` of the page at address
`a`, once its position has been set to `i`, finds its page again. -/
theorem fields_independent (p : Pvr) (ops : List Assign) (h : ∀ op ∈ ops, op.Fits) :
    (ops.foldl assign p).getVaddr = (ops.filterMap Assign.vaddr?).getLastD p.getVaddr ∧
    (ops.foldl assign p).getCpu = (ops.filterMap Assign.cpu?).getLastD p.getCpu ∧
    (ops.foldl assign p).getIdx = (ops.filterMap Assign.idx?).getLastD p.getIdx ∧
    (ops.foldl assign p).getVma = (ops.filterMap Assign.vma?).getLastD p.getVma ∧
    (ops.foldl assign p).isValid = (ops.filterMap Assign.valid?).getLastD p.isValid ∧
    ∀ a i : BitVec 64, (ops.filterMap Assign.idx?).getLast? = some i →
      (ops.foldl assign p).getOwner (a + i * size) = a := by
  have hidx : (ops.foldl assign p).getIdx = (ops.filterMap Assign.idx?).getLastD p.getIdx :=
    WordField.foldl_last getIdx Assign.idx? (fun s op hop => getIdx_assign s (h op hop)) p
  refine ⟨?_, ?_, hidx, ?_, ?_, ?_⟩
  · exact WordField.foldl_last getVaddr Assign.vaddr? (fun s op hop => getVaddr_assign s (h op hop)) p
  · exact WordField.foldl_last getCpu Assign.cpu? (fun s op hop => getCpu_assign s (h op hop)) p
  · exact WordField.foldl_last getVma Assign.vma? (fun s op hop => getVma_assign s (h op hop)) p
  · exact WordField.foldl_last isValid Assign.valid? (fun s op hop => isValid_assign s (h op hop)) p
  · intro a i hi
    rw [List.getLastD_eq_getLast?, hi, Option.getD_some] at hidx
    rw [getOwner, hidx, BitVec.add_sub_cancel]

/-- A slot in which every bit is set is taken over for another area. -/
def takeOver : List Assign :=
  [.mkInvalid, .setIdx 2#64, .setVma 0x1000#64, .setVaddr 0x7000#64, .setCpu 3#64, .mkValid]

theorem fields_independent_takeOver :
    (∀ op ∈ takeOver, op.Fits) ∧
      (takeOver.foldl assign ⟨-1#64, -1#64⟩).getCpu = 3#64 := by
  have h : ∀ op ∈ takeOver, op.Fits := by decide
  exact ⟨h, (fields_independent ⟨-1#64, -1#64⟩ takeOver h).2.1⟩

/-! ### The words taken apart -/

/-- The fields of a slot, without its position in the page. -/
def unpack (p : Pvr) : PrVmaRmap :=
  ⟨p.isValid, p.getVma.toNat, p.getVaddr.toNat, p.getCpu.toNat⟩

lemma Records.unpack {p : Pvr} {i : Fin maxRmapsPerPage} {vaddr vma : BitVec 64} {cpu : ℕ}
    (h : p.Records i vaddr vma cpu) : p.unpack = ⟨true, vma.toNat, vaddr.toNat, cpu⟩ := by
  rw [Pvr.unpack, h.valid, h.vma_eq, h.vaddr_eq, h.cpu_eq]

lemma unpack_mkInvalid (p : Pvr) : p.mkInvalid.unpack = { p.unpack with valid := false } := by
  simp only [unpack, isValid_mkInvalid, getVma_mkInvalid]
  rfl

lemma unpack_clear (p : Pvr) (i : Fin maxRmapsPerPage) : (p.clear i).unpack = .reset := by
  have h0 : (0#64 : BitVec 64) &&& 0x7F#64 = 0#64 := by decide
  have ha : (0#64 : BitVec 64) &&& ~~~0xFFF#64 = 0#64 := by decide
  have hv : (0#64 : BitVec 64) &&& ~~~0x01#64 = 0#64 := by decide
  have hvma : (p.clear i).getVma = 0#64 := getVma_setVma p.mkInvalid hv
  have hvaddr : (p.clear i).getVaddr = 0#64 := by
    rw [clear, getVaddr_setIdx, getVaddr_setCpu _ h0]
    exact getVaddr_setVaddr p.mkInvalid ha
  have hcpu : (p.clear i).getCpu = 0#64 := by
    rw [clear, getCpu_setIdx, getCpu_setCpu _ h0]
  rw [unpack, isValid_clear, hvma, hvaddr, hcpu]
  rfl

end Pvr

end FastMap
