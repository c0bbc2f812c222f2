import Mathlib

/-!
# The requests on the bitmap of a device

The bitmap of a raw device says which of its pages have been written; a page whose bit is clear is
not read from the device. User space changes the bits through `raw_ioctl`. What a request does is
its return value and the bits it writes, in order; a bit is counted from the start of the bitmap,
also when it lies beyond its end. Page numbers and lengths are 64-bit values, and so are the sums
in the checks.
-/

namespace FastMap

/-- `EFAULT` -/
def efault : ℤ := 14
/-- `EINVAL` -/
def einval : ℤ := 22

lemma einval_ne : -einval ≠ 0 := by decide

/-- A write to a bit. -/
abbrev BitWrite := ℕ × Bool

/-- The bits after some writes. -/
def writeBits (bits : ℕ → Bool) (ws : List BitWrite) : ℕ → Bool :=
  ws.foldl (fun bits w => Function.update bits w.1 w.2) bits

/-- `bitmap_clear` and `bitmap_set` -/
def fillBits (start len : ℕ) (b : Bool) : List BitWrite :=
  (List.range' start len).map fun n => (n, b)

/-- `struct fake_blk_page_range` -/
structure FakeBlkPageRange where
  offset : BitVec 64
  length : BitVec 64
  deriving DecidableEq, Repr

/-- `struct fake_blk_page_bitmap`; `bpage` is given bit by bit. -/
structure FakeBlkPageBitmap where
  offset : BitVec 64
  bpage : ℕ → Bool

/-- `struct fake_blk_pages_num` in its allocation: the array, the count that follows it, and the
memory after the structure. -/
structure FakeBlkPagesNum where
  blocks : Fin 511 → BitVec 64
  num : BitVec 64
  beyond : ℕ → BitVec 64

/-- What an index of the array reads. -/
def FakeBlkPagesNum.block (t : FakeBlkPagesNum) (i : ℕ) : BitVec 64 :=
  if h : i < 511 then t.blocks ⟨i, h⟩ else if i = 511 then t.num else t.beyond (i - 512)

/-- `BYTES_TO_BITS(nb)` -/
def bytesToBits (nb : ℕ) : ℕ := 64 * nb / 8

/-- The requests; `none` is an argument that `copy_from_user` cannot read. -/
inductive BitmapRequest where
  | zeroPage (num : Option (BitVec 64))
  | fillPage (num : Option (BitVec 64))
  | testPage (num : Option (BitVec 64))
  | zeroRange (r : Option FakeBlkPageRange)
  | fillRange (r : Option FakeBlkPageRange)
  | flipCopyBitmap (b : Option FakeBlkPageBitmap)
  | zeroPages (t : Option FakeBlkPagesNum)

/-- The return value, the bits written, and the indices of `blocks` that were read. -/
structure IoctlOutcome where
  retval : ℤ
  writes : List BitWrite
  reads : List ℕ
  deriving DecidableEq, Repr

namespace BitmapRequest

/-- `FAKE_BLK_IOC_ZERO_PAGE` and `FAKE_BLK_IOC_FILL_PAGE` -/
def pageIoctl (size : BitVec 64) (b : Bool) : Option (BitVec 64) → IoctlOutcome
  | none => ⟨-efault, [], []⟩
  | some num => if size ≤ num then ⟨-einval, [], []⟩ else ⟨0, [(num.toNat, b)], []⟩

/-- `FAKE_BLK_IOC_TEST_PAGE` -/
def testIoctl (size : BitVec 64) (bits : ℕ → Bool) : Option (BitVec 64) → IoctlOutcome
  | none => ⟨-efault, [], []⟩
  | some num => if size ≤ num then ⟨-einval, [], []⟩ else ⟨(bits num.toNat).toInt, [], []⟩

/-- `FAKE_BLK_IOC_ZERO_RANGE` and `FAKE_BLK_IOC_FILL_RANGE` -/
def rangeIoctl (size : BitVec 64) (b : Bool) : Option FakeBlkPageRange → IoctlOutcome
  | none => ⟨-efault, [], []⟩
  | some r =>
    if size ≤ r.offset then ⟨-einval, [], []⟩
    else if size < r.offset + r.length then ⟨-einval, [], []⟩
    else ⟨0, fillBits r.offset.toNat r.length.toNat b, []⟩

/-- The loop of `FAKE_BLK_IOC_FLIP_COPY_BITMAP`, from `i` on: the bit of the user is changed, then
tested, then copied. -/
def flipLoop (offset : BitVec 64) : ℕ → ℕ → (ℕ → Bool) → List BitWrite
  | 0, _, _ => []
  | n + 1, i, bpage =>
    let bpage := Function.update bpage i (!bpage i)
    ((offset + BitVec.ofNat 64 i).toNat, bpage i) :: flipLoop offset n (i + 1) bpage

/-- `FAKE_BLK_IOC_FLIP_COPY_BITMAP` -/
def flipIoctl (size : BitVec 64) : Option FakeBlkPageBitmap → IoctlOutcome
  | none => ⟨-efault, [], []⟩
  | some b =>
    if size < b.offset + BitVec.ofNat 64 (bytesToBits 4088) then ⟨-einval, [], []⟩
    else ⟨0, flipLoop b.offset (bytesToBits 4088) 0 b.bpage, []⟩

/-- The loop of `FAKE_BLK_IOC_ZERO_PAGES`, from `i` on. -/
def zeroLoop (size : BitVec 64) (block : ℕ → BitVec 64) : ℕ → ℕ → IoctlOutcome
  | 0, _ => ⟨0, [], []⟩
  | n + 1, i =>
    if size < block i then ⟨-einval, [], [i]⟩
    else
      let o := zeroLoop size block n (i + 1)
      ⟨o.retval, ((block i).toNat, false) :: o.writes, i :: o.reads⟩

/-- `FAKE_BLK_IOC_ZERO_PAGES` -/
def pagesIoctl (size : BitVec 64) : Option FakeBlkPagesNum → IoctlOutcome
  | none => ⟨-efault, [], []⟩
  | some t => zeroLoop size t.block t.num.toNat 0

/-- The cases of `raw_ioctl` on the bitmap. -/
def rawIoctl (size : BitVec 64) (bits : ℕ → Bool) : BitmapRequest → IoctlOutcome
  | zeroPage num => pageIoctl size false num
  | fillPage num => pageIoctl size true num
  | testPage num => testIoctl size bits num
  | zeroRange r => rangeIoctl size false r
  | fillRange r => rangeIoctl size true r
  | flipCopyBitmap b => flipIoctl size b
  | zeroPages t => pagesIoctl size t

end BitmapRequest

/-! ### Writing bits -/

section bits

variable {bits : ℕ → Bool} {ws : List BitWrite} {n : ℕ} {b : Bool}

/-- A bit that is not written keeps its value. -/
lemma writeBits_of_not_mem (h : ∀ w ∈ ws, w.1 ≠ n) : writeBits bits ws n = bits n := by
  induction ws generalizing bits with
  | nil => rfl
  | cons w ws ih =>
    change writeBits (Function.update bits w.1 w.2) ws n = bits n
    rw [ih fun w' hw' => h w' (List.mem_cons_of_mem w hw')]
    exact Function.update_of_ne (h w List.mem_cons_self).symm _ _

/-- A bit has the value that all writes to it agree on. -/
lemma writeBits_of_mem (h : ∀ w ∈ ws, w.1 = n → w.2 = b) (hn : ∃ w ∈ ws, w.1 = n) :
    writeBits bits ws n = b := by
  induction ws generalizing bits with
  | nil =>
    obtain ⟨w, hw, -⟩ := hn
    exact absurd hw List.not_mem_nil
  | cons w ws ih =>
    change writeBits (Function.update bits w.1 w.2) ws n = b
    by_cases hlater : ∃ w' ∈ ws, w'.1 = n
    · exact ih (fun w' hw' => h w' (List.mem_cons_of_mem w hw')) hlater
    · obtain ⟨w', hw', rfl⟩ := hn
      have hww : w' = w := by
        rcases List.mem_cons.mp hw' with rfl | hmem
        · rfl
        · exact absurd ⟨w', hmem, rfl⟩ hlater
      subst hww
      rw [writeBits_of_not_mem fun x hx hxn => hlater ⟨x, hx, hxn⟩, Function.update_self]
      exact h w' List.mem_cons_self rfl

/-- The bits after a sequence of writes of one value. -/
lemma writeBits_map_const (ns : List ℕ) (b : Bool) (n : ℕ) :
    writeBits bits (ns.map fun m => (m, b)) n = if n ∈ ns then b else bits n := by
  split_ifs with hn
  · apply writeBits_of_mem
    · intro w hw _
      obtain ⟨m, -, rfl⟩ := List.mem_map.mp hw
      rfl
    · exact ⟨(n, b), List.mem_map.mpr ⟨n, hn, rfl⟩, rfl⟩
  · apply writeBits_of_not_mem
    intro w hw
    obtain ⟨m, hm, rfl⟩ := List.mem_map.mp hw
    rintro rfl
    exact hn hm

end bits

/-! ### Ranges -/

/-- The requests that are about a range of bits. -/
inductive RangeRequest where
  | zeroRange (r : FakeBlkPageRange)
  | fillRange (r : FakeBlkPageRange)
  | flipCopyBitmap (b : FakeBlkPageBitmap)

namespace RangeRequest

def request : RangeRequest → BitmapRequest
  | zeroRange r => .zeroRange (some r)
  | fillRange r => .fillRange (some r)
  | flipCopyBitmap b => .flipCopyBitmap (some b)

/-! What the request asks for: its first bit, the number of bits, and the value of each of them. -/

def offset : RangeRequest → ℕ
  | zeroRange r => r.offset.toNat
  | fillRange r => r.offset.toNat
  | flipCopyBitmap b => b.offset.toNat

def count : RangeRequest → ℕ
  | zeroRange r => r.length.toNat
  | fillRange r => r.length.toNat
  | flipCopyBitmap _ => 32704

def value : RangeRequest → ℕ → Bool
  | zeroRange _, _ => false
  | fillRange _, _ => true
  | flipCopyBitmap b, i => !b.bpage i

/-- The range lies in the bitmap, as unbounded numbers. -/
def InBitmap (size : BitVec 64) (q : RangeRequest) : Prop :=
  match q with
  | flipCopyBitmap _ => q.offset + q.count ≤ size.toNat
  | _ => q.offset < size.toNat ∧ q.offset + q.count ≤ size.toNat

/-- The request has exactly the effect it asks for. -/
structure Exact (size : BitVec 64) (bits : ℕ → Bool) (q : RangeRequest) : Prop where
  success : (q.request.rawIoctl size bits).retval = 0 ↔ q.InBitmap size
  effect (n : ℕ) : (q.request.rawIoctl size bits).retval = 0 →
    writeBits bits (q.request.rawIoctl size bits).writes n =
      if q.offset ≤ n ∧ n < q.offset + q.count then q.value (n - q.offset) else bits n
  touched {w : BitWrite} : w ∈ (q.request.rawIoctl size bits).writes →
    q.offset ≤ w.1 ∧ w.1 < q.offset + q.count ∧ w.1 < size.toNat
  failure : (q.request.rawIoctl size bits).retval ≠ 0 →
    (q.request.rawIoctl size bits).writes = []

/-- The sum in the check does not wrap around, or the request is refused all the same. -/
def NoWrap (size : BitVec 64) (q : RangeRequest) : Prop :=
  match q with
  | flipCopyBitmap _ => q.offset + q.count < 2 ^ 64 ∨ size.toNat < q.offset + q.count - 2 ^ 64
  | _ => q.offset + q.count < 2 ^ 64 ∨ size.toNat ≤ q.offset

/-- The writes that the request asks for. -/
def wanted (q : RangeRequest) : List BitWrite :=
  (List.range q.count).map fun i => (q.offset + i, q.value i)

variable {size : BitVec 64} {bits : ℕ → Bool} {q : RangeRequest}

lemma mem_wanted {w : BitWrite} :
    w ∈ q.wanted ↔ ∃ i < q.count, w = (q.offset + i, q.value i) := by
  simp only [wanted, List.mem_map, List.mem_range, eq_comm]

lemma writeBits_wanted (bits : ℕ → Bool) (q : RangeRequest) (n : ℕ) : writeBits bits q.wanted n =
    if q.offset ≤ n ∧ n < q.offset + q.count then q.value (n - q.offset) else bits n := by
  split_ifs with hn
  · apply writeBits_of_mem
    · intro w hw hwn
      obtain ⟨i, -, rfl⟩ := mem_wanted.mp hw
      rw [← hwn, Nat.add_sub_cancel_left]
    · refine ⟨(n, q.value (n - q.offset)), mem_wanted.mpr ⟨n - q.offset, by omega, ?_⟩, rfl⟩
      rw [Nat.add_sub_cancel' hn.1]
  · apply writeBits_of_not_mem
    intro w hw
    obtain ⟨i, hi, rfl⟩ := mem_wanted.mp hw
    change q.offset + i ≠ n
    omega

lemma flipLoop_eq (offset : BitVec 64) (n i : ℕ) (bpage : ℕ → Bool) :
    BitmapRequest.flipLoop offset n i bpage =
      (List.range' i n).map fun j => ((offset.toNat + j) % 2 ^ 64, !bpage j) := by
  induction n generalizing i bpage with
  | zero => rfl
  | succ n ih =>
    rw [BitmapRequest.flipLoop, List.range'_succ, List.map_cons, ih]
    congr 1
    · rw [Function.update_self, BitVec.toNat_add, BitVec.toNat_ofNat, Nat.add_mod_mod]
    · apply List.map_congr_left
      intro j hj
      have hne : j ≠ i := by
        rw [List.mem_range'_1] at hj
        omega
      rw [Function.update_of_ne hne]

/-- `bitmap_clear` and `bitmap_set` of a range. -/
lemma fillBits_eq (start len : ℕ) (b : Bool) :
    fillBits start len b = (List.range len).map fun i => (start + i, b) := by
  rw [fillBits, List.range'_eq_map_range, List.map_map]
  rfl

/-- `FAKE_BLK_IOC_ZERO_RANGE` and `FAKE_BLK_IOC_FILL_RANGE`, with the sum as a number. -/
lemma rangeIoctl_eq (size : BitVec 64) (b : Bool) (r : FakeBlkPageRange) :
    BitmapRequest.rangeIoctl size b (some r) =
      if size.toNat ≤ r.offset.toNat ∨
          size.toNat < (r.offset.toNat + r.length.toNat) % 2 ^ 64 then ⟨-einval, [], []⟩
      else ⟨0, (List.range r.length.toNat).map fun i => (r.offset.toNat + i, b), []⟩ := by
  simp only [BitmapRequest.rangeIoctl, BitVec.le_def, BitVec.lt_def, BitVec.toNat_add, fillBits_eq]
  split_ifs <;> first | rfl | omega

/-- `FAKE_BLK_IOC_FLIP_COPY_BITMAP`, with the sum as a number. -/
lemma flipIoctl_eq (size : BitVec 64) (b : FakeBlkPageBitmap) :
    BitmapRequest.flipIoctl size (some b) =
      if size.toNat < (b.offset.toNat + 32704) % 2 ^ 64 then ⟨-einval, [], []⟩
      else ⟨0, (List.range 32704).map fun i => ((b.offset.toNat + i) % 2 ^ 64, !b.bpage i), []⟩ := by
  have hbits : bytesToBits 4088 = 32704 := rfl
  simp only [BitmapRequest.flipIoctl, BitVec.lt_def, BitVec.toNat_add, hbits, flipLoop_eq,
    BitVec.toNat_ofNat, List.range_eq_range']

lemma rangeIoctl_cases (b : Bool) (r : FakeBlkPageRange)
    (h : r.offset.toNat + r.length.toNat < 2 ^ 64 ∨ size.toNat ≤ r.offset.toNat) :
    ((r.offset.toNat < size.toNat ∧ r.offset.toNat + r.length.toNat ≤ size.toNat) ∧
      BitmapRequest.rangeIoctl size b (some r) =
        ⟨0, (List.range r.length.toNat).map fun i => (r.offset.toNat + i, b), []⟩) ∨
    (¬ (r.offset.toNat < size.toNat ∧ r.offset.toNat + r.length.toNat ≤ size.toNat) ∧
      BitmapRequest.rangeIoctl size b (some r) = ⟨-einval, [], []⟩) := by
  rw [rangeIoctl_eq]
  split_ifs with hc
  · right
    refine ⟨?_, rfl⟩
    omega
  · left
    refine ⟨?_, rfl⟩
    omega

/-- When the sum does not wrap around, the request makes the writes that it asks for, or is
refused. -/
lemma rawIoctl_cases (bits : ℕ → Bool) (h : q.NoWrap size) :
    (q.InBitmap size ∧ q.request.rawIoctl size bits = ⟨0, q.wanted, []⟩) ∨
    (¬ q.InBitmap size ∧ q.request.rawIoctl size bits = ⟨-einval, [], []⟩) := by
  cases q with
  | zeroRange r => exact rangeIoctl_cases false r h
  | fillRange r => exact rangeIoctl_cases true r h
  | flipCopyBitmap b =>
    have h' : b.offset.toNat + 32704 < 2 ^ 64 ∨ size.toNat < b.offset.toNat + 32704 - 2 ^ 64 := h
    have hlt := b.offset.isLt
    simp only [request, BitmapRequest.rawIoctl, flipIoctl_eq]
    split_ifs with hc
    · right
      refine ⟨?_, rfl⟩
      change ¬ b.offset.toNat + 32704 ≤ size.toNat
      omega
    · left
      have hsum : b.offset.toNat + 32704 < 2 ^ 64 := by omega
      refine ⟨?_, ?_⟩
      · change b.offset.toNat + 32704 ≤ size.toNat
        omega
      · -- no position of the loop wraps around either
        have hmap : ((List.range 32704).map fun i =>
            ((b.offset.toNat + i) % 2 ^ 64, !b.bpage i)) = (flipCopyBitmap b).wanted := by
          simp only [wanted, count, offset, value]
          apply List.map_congr_left
          intro i hi
          have hi' := List.mem_range.mp hi
          rw [Nat.mod_eq_of_lt (by omega)]
        rw [hmap]

/-- When the sum wraps around, the request is carried out although it leaves the bitmap. -/
lemma retval_of_wrap (bits : ℕ → Bool) (h : ¬ q.NoWrap size) :
    (q.request.rawIoctl size bits).retval = 0 ∧ ¬ q.InBitmap size := by
  have hrange : ∀ (b : Bool) (r : FakeBlkPageRange),
      ¬ (r.offset.toNat + r.length.toNat < 2 ^ 64 ∨ size.toNat ≤ r.offset.toNat) →
      (BitmapRequest.rangeIoctl size b (some r)).retval = 0 ∧
        ¬ (r.offset.toNat < size.toNat ∧ r.offset.toNat + r.length.toNat ≤ size.toNat) := by
    intro b r hw
    have hsize := size.isLt
    have hlen := r.length.isLt
    rw [rangeIoctl_eq, if_neg (by omega)]
    refine ⟨rfl, ?_⟩
    omega
  cases q with
  | zeroRange r => exact hrange false r h
  | fillRange r => exact hrange true r h
  | flipCopyBitmap b =>
    have h' : ¬ (b.offset.toNat + 32704 < 2 ^ 64 ∨
      size.toNat < b.offset.toNat + 32704 - 2 ^ 64) := h
    have hsize := size.isLt
    have hlt := b.offset.isLt
    simp only [request, BitmapRequest.rawIoctl, flipIoctl_eq]
    rw [if_neg (by omega)]
    refine ⟨rfl, ?_⟩
    change ¬ b.offset.toNat + 32704 ≤ size.toNat
    omega

/-- A request on a range of bits has exactly the effect it asks for, if and only if the sum in its
check does not wrap around. -/
theorem rangeRequest_exact_iff (size : BitVec 64) (bits : ℕ → Bool) (q : RangeRequest) :
    q.Exact size bits ↔ q.NoWrap size := by
  constructor
  · intro hx
    by_contra hw
    obtain ⟨hret, hin⟩ := retval_of_wrap bits hw
    exact hin (hx.success.mp hret)
  · intro hw
    rcases rawIoctl_cases bits hw with ⟨hin, ho⟩ | ⟨hin, ho⟩
    · refine ⟨?_, ?_, ?_, ?_⟩
      · simp only [ho, hin]
      · intro n _
        rw [ho]
        exact writeBits_wanted bits q n
      · intro w hmem
        rw [ho] at hmem
        obtain ⟨i, hi, rfl⟩ := mem_wanted.mp hmem
        have hle : q.offset + q.count ≤ size.toNat := by
          cases q with
          | zeroRange r => exact hin.2
          | fillRange r => exact hin.2
          | flipCopyBitmap b => exact hin
        change q.offset ≤ q.offset + i ∧ q.offset + i < q.offset + q.count ∧
          q.offset + i < size.toNat
        omega
      · intro hne
        rw [ho] at hne
        exact absurd rfl hne
    · have hne : (q.request.rawIoctl size bits).retval ≠ 0 := by
        rw [ho]
        exact einval_ne
      refine ⟨iff_of_false hne hin, fun n h0 => absurd h0 hne, ?_, ?_⟩
      · intro w hmem
        rw [ho] at hmem
        exact absurd hmem List.not_mem_nil
      · intro _
        rw [ho]

/-- All but the first bit of the address space, in a bitmap of eight bits. -/
def wrapping : RangeRequest := .zeroRange ⟨1, -1⟩

theorem wrapping_not_exact :
    ¬ ∀ (size : BitVec 64) (bits : ℕ → Bool) (q : RangeRequest), q.Exact size bits := by
  intro h
  have hx := (h 8 (fun _ => true) wrapping).success
  have hret : (wrapping.request.rawIoctl 8 fun _ => true).retval = 0 := by
    simp only [wrapping, request, BitmapRequest.rawIoctl, rangeIoctl_eq]
    rw [if_neg (by decide)]
  have hin := (hx.mp hret).2
  revert hin
  decide

end RangeRequest

/-! ### Lists of pages -/

namespace FakeBlkPagesNum

variable {size : BitVec 64} {bits : ℕ → Bool} {t : FakeBlkPagesNum}

def request (t : FakeBlkPagesNum) : BitmapRequest := .zeroPages (some t)

/-- The pages of the list. -/
def Names (t : FakeBlkPagesNum) (n : ℕ) : Prop := ∃ i < t.num.toNat, (t.block i).toNat = n

instance (t : FakeBlkPagesNum) (n : ℕ) : Decidable (t.Names n) :=
  inferInstanceAs (Decidable (∃ i < t.num.toNat, (t.block i).toNat = n))

/-- The request clears the pages of a list that fits into the array and the bitmap, or is refused
and changes nothing; and it reads nothing but the array. -/
structure AllOrNothing (size : BitVec 64) (bits : ℕ → Bool) (t : FakeBlkPagesNum) : Prop where
  all : (t.request.rawIoctl size bits).retval = 0 → t.num.toNat ≤ 511 ∧
    (∀ i < t.num.toNat, t.block i < size) ∧
    ∀ n, writeBits bits (t.request.rawIoctl size bits).writes n =
      if t.Names n then false else bits n
  nothing : (t.request.rawIoctl size bits).retval ≠ 0 →
    writeBits bits (t.request.rawIoctl size bits).writes = bits
  reads {i : ℕ} : i ∈ (t.request.rawIoctl size bits).reads → i < 511

/-- Entry `i` is the first one that the code refuses. -/
structure FirstBad (size : BitVec 64) (t : FakeBlkPagesNum) (i : ℕ) : Prop where
  lt : i < t.num.toNat
  bad : size < t.block i
  first {j : ℕ} : j < i → t.block j ≤ size

/-- Either the list fits into the array and all its pages into the bitmap; or the first page beyond
the end of the bitmap is an entry of the array, and the bits of all pages before it are clear. -/
def Harmless (size : BitVec 64) (bits : ℕ → Bool) (t : FakeBlkPagesNum) : Prop :=
  (t.num.toNat ≤ 511 ∧ ∀ i < t.num.toNat, t.block i < size) ∨
  ∃ i < 511, t.FirstBad size i ∧ ∀ j < i, bits (t.block j).toNat = false

/-- The writes for the entries from `i` on. -/
def clears (block : ℕ → BitVec 64) (i n : ℕ) : List BitWrite :=
  (List.range' i n).map fun j => ((block j).toNat, false)

/-- The loop, when it meets no entry that it refuses. -/
lemma zeroLoop_of_le {block : ℕ → BitVec 64} {n i : ℕ}
    (h : ∀ j, i ≤ j → j < i + n → block j ≤ size) :
    BitmapRequest.zeroLoop size block n i = ⟨0, clears block i n, List.range' i n⟩ := by
  induction n generalizing i with
  | zero => rfl
  | succ n ih =>
    have hi : ¬ size < block i := BitVec.not_lt.mpr (h i (le_refl i) (by omega))
    rw [BitmapRequest.zeroLoop, if_neg hi, ih fun j hij hj => h j (by omega) (by omega)]
    rfl

/-- The loop, when it refuses entry `i + k`. -/
lemma zeroLoop_of_lt {block : ℕ → BitVec 64} {n i k : ℕ} (hk : k < n)
    (hbad : size < block (i + k)) (h : ∀ j, i ≤ j → j < i + k → block j ≤ size) :
    BitmapRequest.zeroLoop size block n i =
      ⟨-einval, clears block i k, List.range' i (k + 1)⟩ := by
  induction n generalizing i k with
  | zero => exact absurd hk (Nat.not_lt_zero k)
  | succ n ih =>
    cases k with
    | zero =>
      rw [Nat.add_zero] at hbad
      rw [BitmapRequest.zeroLoop, if_pos hbad]
      rfl
    | succ k =>
      have hi : ¬ size < block i := BitVec.not_lt.mpr (h i (le_refl i) (by omega))
      have hbad' : size < block (i + 1 + k) := by rwa [Nat.add_right_comm]
      rw [BitmapRequest.zeroLoop, if_neg hi,
        ih (by omega) hbad' fun j hij hj => h j (by omega) (by omega)]
      rfl

/-- The two ways the request ends. -/
lemma rawIoctl_cases (size : BitVec 64) (bits : ℕ → Bool) (t : FakeBlkPagesNum) :
    ((∀ i < t.num.toNat, t.block i ≤ size) ∧ t.request.rawIoctl size bits =
      ⟨0, clears t.block 0 t.num.toNat, List.range' 0 t.num.toNat⟩) ∨
    ∃ i, t.FirstBad size i ∧
      t.request.rawIoctl size bits = ⟨-einval, clears t.block 0 i, List.range' 0 (i + 1)⟩ := by
  by_cases hall : ∀ i < t.num.toNat, t.block i ≤ size
  · exact Or.inl ⟨hall, zeroLoop_of_le fun j _ hj => hall j (by omega)⟩
  · -- the least of the entries that are refused
    have hex : ∃ i, i < t.num.toNat ∧ size < t.block i := by
      simpa only [not_forall, exists_prop, BitVec.not_le] using hall
    obtain ⟨hlt, hbad⟩ := Nat.find_spec hex
    have hfirst : ∀ j < Nat.find hex, t.block j ≤ size := by
      intro j hj
      by_contra hn
      exact Nat.find_min hex hj ⟨hj.trans hlt, BitVec.not_le.mp hn⟩
    refine Or.inr ⟨Nat.find hex, ⟨hlt, hbad, fun hj => hfirst _ hj⟩, ?_⟩
    apply zeroLoop_of_lt hlt
    · rwa [Nat.zero_add]
    · intro j _ hj
      exact hfirst j (by omega)

/-- The bits after the first entries have been cleared. -/
lemma writeBits_clears (bits : ℕ → Bool) (t : FakeBlkPagesNum) (k n : ℕ) :
    writeBits bits (clears t.block 0 k) n =
      if ∃ i < k, (t.block i).toNat = n then false else bits n := by
  have hmap : clears t.block 0 k =
      ((List.range k).map fun j => (t.block j).toNat).map fun m => (m, false) := by
    rw [clears, ← List.range_eq_range', List.map_map]
    rfl
  rw [hmap, writeBits_map_const]
  exact if_congr (by simp) rfl rfl

/-- The request on a list of pages is all or nothing and in bounds, if and only if the list is
harmless. -/
theorem zeroPages_allOrNothing_iff (size : BitVec 64) (bits : ℕ → Bool) (t : FakeBlkPagesNum) :
    t.AllOrNothing size bits ↔ t.Harmless size bits := by
  rcases rawIoctl_cases size bits t with ⟨hall, ho⟩ | ⟨i, hi, ho⟩
  · -- the loop comes to its end
    constructor
    · intro hx
      obtain ⟨hnum, hlt, -⟩ := hx.all (by rw [ho])
      exact Or.inl ⟨hnum, hlt⟩
    · rintro (⟨hnum, hlt⟩ | ⟨i, -, hbad, -⟩)
      · refine ⟨fun _ => ⟨hnum, hlt, fun n => ?_⟩, fun hne => absurd (by rw [ho]) hne, ?_⟩
        · rw [ho]
          exact writeBits_clears bits t _ n
        · intro j hj
          rw [ho, List.mem_range'_1] at hj
          omega
      · exact absurd hbad.bad (BitVec.not_lt.mpr (hall i hbad.lt))
  · have hne : (t.request.rawIoctl size bits).retval ≠ 0 := by
      rw [ho]
      exact einval_ne
    constructor
    · intro hx
      refine Or.inr ⟨i, hx.reads (by rw [ho]; simp), hi, fun j hj => ?_⟩
      -- the bit has been cleared, and nothing has changed
      have hsame := congrFun (hx.nothing hne) (t.block j).toNat
      rw [ho, writeBits_clears, if_pos ⟨j, hj, rfl⟩] at hsame
      exact hsame.symm
    · rintro (⟨-, hlt⟩ | ⟨i', hi', hbad, hclear⟩)
      · exact absurd (hlt i hi.lt) (BitVec.lt_asymm hi.bad)
      · -- there is one first entry
        obtain rfl : i' = i := by
          rcases Nat.lt_trichotomy i' i with h | h | h
          · exact absurd hbad.bad (BitVec.not_lt.mpr (hi.first h))
          · exact h
          · exact absurd hi.bad (BitVec.not_lt.mpr (hbad.first h))
        refine ⟨fun h0 => absurd h0 hne, fun _ => funext fun n => ?_, ?_⟩
        · rw [ho, writeBits_clears]
          split_ifs with hn
          · obtain ⟨j, hj, rfl⟩ := hn
            exact (hclear j hj).symm
          · rfl
        · intro j hj
          rw [ho, List.mem_range'_1] at hj
          omega

/-- A good page before a bad one. -/
def halfDone : FakeBlkPagesNum := ⟨fun i => if i.val = 0 then 3 else 100, 2, fun _ => 0⟩

theorem halfDone_not_allOrNothing :
    ¬ ∀ (size : BitVec 64) (bits : ℕ → Bool) (t : FakeBlkPagesNum), t.AllOrNothing size bits := by
  intro h
  have hx := (h 8 (fun _ => true) halfDone).nothing (by decide)
  have hbit := congrFun hx 3
  revert hbit
  decide

end FakeBlkPagesNum

end FastMap
