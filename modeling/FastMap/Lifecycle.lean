import FastMap.Lib.Run
import FastMap.State

/-!
# The life of the buffer

The buffer is allocated, changed and freed through sysfs: `0_buffer_state` loads and unloads it, and
the load-time parameters reallocate a loaded one (`buffer_loadtime_parameters.c`,
`di-mmap_parameters.c`, `main.c`). `allocate_and_init_runtime_buffer` initialises what it allocates.
Three of the handlers then call `init_mmap_params` once more. On a loaded buffer this sets up the
pages a second time and starts a second set of evictor threads, and without a buffer it goes
through a null pointer. Allocations are taken to succeed.
-/

namespace FastMap

/-! ### Parameters and buffers -/

/-- `fraction_t` -/
structure Fraction where
  mul : ℤ
  logb2Shift : ℕ
  deriving DecidableEq, Repr

/-- `buf_ld_params_t` -/
structure BufLdParams where
  mmapBufSize : BitVec 64
  superpageAllocOrder : ℤ
  hotPageFifoAllocRatio : Fraction
  victimQueueAllocRatio : Fraction
  deriving DecidableEq, Repr

/-- `init_ld_params`, with the size that the module was loaded with. -/
def BufLdParams.init (size : BitVec 64) : BufLdParams := ⟨size, 0, ⟨1, 1⟩, ⟨1, 5⟩⟩

/-- `banked_buffer_t` with its bank. -/
structure FifoBuffer where
  ldParams : BufLdParams
  /-- How often `init_hash_table_free_pages` has set up its pages and free lists. -/
  inits : ℕ
  /-- The evictor threads that run on it. -/
  evictors : ℕ
  deriving DecidableEq, Repr

/-- `dimmap_buffer` and the globals `buf_data` and `active_evictors`. -/
structure DimmapBuffer where
  bufferState : ℤ
  ldParams : BufLdParams
  bufData : Option FifoBuffer
  activeEvictors : ℤ
  /-- Evictor threads that still run on a buffer that has been freed. -/
  stray : ℕ
  deriving DecidableEq, Repr

namespace DimmapBuffer

/-- The state in which the module is loaded. -/
def init (size : BitVec 64) : DimmapBuffer := ⟨0, .init size, none, 0, 0⟩

/-- All evictor threads. -/
def running (s : DimmapBuffer) : ℕ := s.stray + (s.bufData.map FifoBuffer.evictors).getD 0

/-! ### Setting up and tearing down -/

/-- `init_mmap_params`: new pages, and `EVICTOR_THREADS` new threads, which are counted from `0`. -/
def initMmapParams (s : DimmapBuffer) : Except Halt DimmapBuffer :=
  match s.bufData with
  | none => .error .nullDeref
  | some b =>
    .ok { s with
      bufData := some ⟨s.ldParams, b.inits + 1, b.evictors + evictorThreads⟩
      activeEvictors := evictorThreads }

/-- `cleanup_mmap_buffer_data`: the threads of the buffer are told to stop, and each one that does
counts `active_evictors` down. The call returns when it finds the count at `0`; `late` more threads
may stop while it returns. -/
def cleanupMmapBufferData (late : ℕ) (s : DimmapBuffer) : Except Halt DimmapBuffer :=
  match s.bufData with
  | none => .ok s
  | some b =>
    if 0 ≤ s.activeEvictors ∧ s.activeEvictors ≤ b.evictors then
      let left := b.evictors - s.activeEvictors.toNat
      .ok { s with activeEvictors := -(min late left : ℕ), stray := s.stray + (left - late) }
    else .error .spin

/-- `deallocate_runtime_buffer` -/
def deallocateRuntimeBuffer (late : ℕ) (s : DimmapBuffer) : Except Halt DimmapBuffer :=
  match s.cleanupMmapBufferData late with
  | .error x => .error x
  | .ok s => .ok { s with bufferState := 0, bufData := none }

/-- `allocate_and_init_runtime_buffer`; the pages are set up through `reset_device_parameters`. -/
def allocateAndInitRuntimeBuffer (s : DimmapBuffer) : Except Halt DimmapBuffer :=
  match { s with bufData := some ⟨s.ldParams, 0, 0⟩ }.initMmapParams with
  | .error x => .error x
  | .ok s => .ok { s with bufferState := 1 }

/-- `update_dimmap_buf_ld_params` -/
def updateDimmapBufLdParams (late : ℕ) (s : DimmapBuffer) : Except Halt DimmapBuffer :=
  if s.bufferState ≠ 0 then
    match s.deallocateRuntimeBuffer late with
    | .error x => .error x
    | .ok s => s.allocateAndInitRuntimeBuffer
  else .ok s

/-! ### The handlers -/

/-- `store_sys_rt_buffer_state`; `none` is a text that `kstrtoint` refuses. -/
def storeBufferState (late : ℕ) (s : DimmapBuffer) : Option ℤ → Except Halt DimmapBuffer
  | none => .ok s
  | some val =>
    if val = 0 then
      if s.bufferState ≠ 0 then s.deallocateRuntimeBuffer late else .ok s
    else if val = 1 then
      if s.bufferState ≠ 0 then
        match s.deallocateRuntimeBuffer late with
        | .error x => .error x
        | .ok s => s.allocateAndInitRuntimeBuffer
      else s.allocateAndInitRuntimeBuffer
    else .ok s

/-- What the handlers do after they have changed the parameters: all but the one of
`1_superpage_alloc_order` end with `init_mmap_params`. -/
def updateAndInit (late : ℕ) (s : DimmapBuffer) : Except Halt DimmapBuffer :=
  match s.updateDimmapBufLdParams late with
  | .error x => .error x
  | .ok s => s.initMmapParams

/-- `store_ld_param_mmap_buf_size`; the processor takes a shift count modulo the word size. -/
def storeMmapBufSize (late : ℕ) (s : DimmapBuffer) : Option (BitVec 64) → Except Halt DimmapBuffer
  | none => .ok s
  | some newSize =>
    let size := newSize.sshiftRight (s.ldParams.superpageAllocOrder % 64).toNat
    { s with ldParams := { s.ldParams with mmapBufSize := size } }.updateAndInit late

/-- `store_ld_param_superpage_alloc_order` -/
def storeSuperpageAllocOrder (late : ℕ) (s : DimmapBuffer) : Option ℤ → Except Halt DimmapBuffer
  | none => .ok s
  | some val =>
    let ldParams := { s.ldParams with superpageAllocOrder := val }
    { s with ldParams }.updateDimmapBufLdParams late

end DimmapBuffer

/-- The loop that looks for the logarithm of a denominator. `1 << i` is an `int`, so the loop does
not end for one above `2 ^ 30`. -/
def logb2Shift (denominator : ℤ) : Option ℕ := (List.range 31).find? fun i => denominator ≤ 2 ^ i

namespace DimmapBuffer

/-- The body of `store_ld_param_hot_page_fifo_alloc_ratio` and of
`store_ld_param_victim_queue_alloc_ratio`, which differ in the field they assign; `none` is a text
from which `sscanf` does not read two numbers. -/
def storeAllocRatio (assign : BufLdParams → Fraction → BufLdParams) (late : ℕ) (s : DimmapBuffer) :
    Option (ℤ × ℤ) → Except Halt DimmapBuffer
  | none => .ok s
  | some (mul, denominator) =>
    match logb2Shift denominator with
    | none => .error .spin
    | some shift =>
      if 2 ^ shift ≠ denominator then .ok s
      else { s with ldParams := assign s.ldParams ⟨mul, shift⟩ }.updateAndInit late

def storeHotPageFifoAllocRatio : ℕ → DimmapBuffer → Option (ℤ × ℤ) → Except Halt DimmapBuffer :=
  storeAllocRatio fun p r => { p with hotPageFifoAllocRatio := r }

def storeVictimQueueAllocRatio : ℕ → DimmapBuffer → Option (ℤ × ℤ) → Except Halt DimmapBuffer :=
  storeAllocRatio fun p r => { p with victimQueueAllocRatio := r }

end DimmapBuffer

/-- A write to one of the attributes, with the numbers that its text was read as. -/
inductive SysfsWrite where
  | bufferState (val : Option ℤ)
  | bufferSize (val : Option (BitVec 64))
  | superpageAllocOrder (val : Option ℤ)
  | hotPageFifoAllocRatio (val : Option (ℤ × ℤ))
  | victimQueueAllocRatio (val : Option (ℤ × ℤ))
  deriving DecidableEq, Repr

namespace DimmapBuffer

def store (late : ℕ) (s : DimmapBuffer) : SysfsWrite → Except Halt DimmapBuffer
  | .bufferState val => s.storeBufferState late val
  | .bufferSize val => s.storeMmapBufSize late val
  | .superpageAllocOrder val => s.storeSuperpageAllocOrder late val
  | .hotPageFifoAllocRatio val => storeHotPageFifoAllocRatio late s val
  | .victimQueueAllocRatio val => storeVictimQueueAllocRatio late s val

/-- A write that completes. -/
def Stores (s : DimmapBuffer) (w : SysfsWrite × ℕ) (s' : DimmapBuffer) : Prop :=
  s.store w.2 w.1 = .ok s'

/-! ### The life of the buffer -/

/-- A loaded buffer has been set up once and has its evictors, all of them counted; without a
buffer there are none. -/
def Lifecycle (s : DimmapBuffer) : Prop :=
  (s.bufferState = 1 → ∃ b, s.bufData = some b ∧ b.inits = 1 ∧ s.running = evictorThreads ∧
    s.activeEvictors = evictorThreads) ∧
  (s.bufferState = 0 → s.running = 0)

/-- The write does not go through a null pointer, and if it completes it leaves the buffer as it
should be. -/
def Survives (s : DimmapBuffer) (late : ℕ) (w : SysfsWrite) : Prop :=
  s.store late w ≠ .error .nullDeref ∧ ∀ s', s.store late w = .ok s' → s'.Lifecycle

end DimmapBuffer

/-- The denominator of a ratio is a power of two that an `int` can hold. -/
def acceptsRatio (denominator : ℤ) : Bool :=
  (logb2Shift denominator).any fun shift => 2 ^ shift = denominator

/-- The write is accepted by a handler that ends with `init_mmap_params`. -/
def SysfsWrite.reinits : SysfsWrite → Bool
  | .bufferState _ => false
  | .bufferSize val => val.isSome
  | .superpageAllocOrder _ => false
  | .hotPageFifoAllocRatio val => val.any fun r => acceptsRatio r.2
  | .victimQueueAllocRatio val => val.any fun r => acceptsRatio r.2

namespace DimmapBuffer

/-! ### The two states of a sound buffer -/

def unloaded (p : BufLdParams) : DimmapBuffer := ⟨0, p, none, 0, 0⟩

/-- The parameters `p` may have changed since the buffer was loaded with `q`. -/
def loaded (p q : BufLdParams) : DimmapBuffer :=
  ⟨1, p, some ⟨q, 1, evictorThreads⟩, evictorThreads, 0⟩

inductive Sound : DimmapBuffer → Prop
  | unloaded (p : BufLdParams) : Sound (.unloaded p)
  | loaded (p q : BufLdParams) : Sound (.loaded p q)

variable {s s' : DimmapBuffer} {w : SysfsWrite} (late : ℕ) (p p' q : BufLdParams)

lemma sound_init (size : BitVec 64) : Sound (init size) := Sound.unloaded _

lemma Sound.lifecycle (h : s.Sound) : s.Lifecycle := by
  cases h with
  | unloaded p => exact ⟨by simp [DimmapBuffer.unloaded], fun _ => rfl⟩
  | loaded p q => exact ⟨fun _ => ⟨_, rfl, rfl, rfl, rfl⟩, by simp [DimmapBuffer.loaded]⟩

lemma allocate_unloaded : (unloaded p).allocateAndInitRuntimeBuffer = .ok (loaded p p) := rfl

/-- All the evictors of the buffer stop, whatever the call waits for. -/
lemma deallocate_loaded : (loaded p q).deallocateRuntimeBuffer late = .ok (unloaded p) := by
  simp [deallocateRuntimeBuffer, cleanupMmapBufferData, loaded, unloaded]

lemma update_unloaded : (unloaded p).updateDimmapBufLdParams late = .ok (unloaded p) := rfl

/-- The buffer is unloaded and loaded again with the parameters of now. -/
lemma update_loaded : (loaded p q).updateDimmapBufLdParams late = .ok (loaded p p) := by
  have hstate : (loaded p q).bufferState ≠ 0 := by simp [loaded]
  rw [updateDimmapBufLdParams, if_pos hstate, deallocate_loaded]
  exact allocate_unloaded p

/-! ### Handlers that do not set up the pages again -/

lemma Sound.update (h : s.Sound) (p : BufLdParams) :
    ∃ s', { s with ldParams := p }.updateDimmapBufLdParams late = .ok s' ∧ s'.Sound := by
  cases h with
  | unloaded => exact ⟨_, update_unloaded late p, .unloaded p⟩
  | loaded _ q => exact ⟨_, update_loaded late p q, .loaded p p⟩

lemma Sound.storeBufferState (h : s.Sound) (val : Option ℤ) :
    ∃ s', s.storeBufferState late val = .ok s' ∧ s'.Sound := by
  cases val with
  | none => exact ⟨s, rfl, h⟩
  | some val =>
    unfold DimmapBuffer.storeBufferState
    cases h with
    | unloaded p =>
      have hstate : ¬(DimmapBuffer.unloaded p).bufferState ≠ 0 := by simp [DimmapBuffer.unloaded]
      simp only [if_neg hstate, allocate_unloaded]
      split_ifs
      · exact ⟨_, rfl, .unloaded p⟩
      · exact ⟨_, rfl, .loaded p p⟩
      · exact ⟨_, rfl, .unloaded p⟩
    | loaded p q =>
      have hstate : (DimmapBuffer.loaded p q).bufferState ≠ 0 := by simp [DimmapBuffer.loaded]
      simp only [if_pos hstate, deallocate_loaded, allocate_unloaded]
      split_ifs
      · exact ⟨_, rfl, .unloaded p⟩
      · exact ⟨_, rfl, .loaded p p⟩
      · exact ⟨_, rfl, .loaded p q⟩

/-- A ratio that is not accepted changes nothing, unless the loop does not end. One that is accepted
sets up the pages again. -/
lemma storeAllocRatio_cases (assign : BufLdParams → Fraction → BufLdParams) (late : ℕ)
    (s : DimmapBuffer) (val : Option (ℤ × ℤ)) :
    ((val.any fun r => acceptsRatio r.2) = false ∧
      (storeAllocRatio assign late s val = .ok s ∨
        storeAllocRatio assign late s val = .error .spin)) ∨
    ((val.any fun r => acceptsRatio r.2) = true ∧
      ∃ p, storeAllocRatio assign late s val = { s with ldParams := p }.updateAndInit late) := by
  cases val with
  | none => exact .inl ⟨rfl, .inl rfl⟩
  | some r =>
    simp only [Option.any_some, acceptsRatio]
    unfold storeAllocRatio
    cases hshift : logb2Shift r.2 with
    | none =>
      left
      exact ⟨rfl, .inr (by simp only [hshift])⟩
    | some shift =>
      simp only [hshift, Option.any_some, decide_eq_false_iff_not, decide_eq_true_iff]
      by_cases hpow : (2 : ℤ) ^ shift = r.2
      · right
        rw [if_neg (not_not.2 hpow)]
        exact ⟨hpow, _, rfl⟩
      · left
        rw [if_pos hpow]
        exact ⟨hpow, .inl rfl⟩

lemma Sound.storeAllocRatio_of_not_accepts (h : s.Sound)
    (assign : BufLdParams → Fraction → BufLdParams) {val : Option (ℤ × ℤ)}
    (hval : (val.any fun r => acceptsRatio r.2) = false) :
    (∃ s', storeAllocRatio assign late s val = .ok s' ∧ s'.Sound) ∨
      storeAllocRatio assign late s val = .error .spin := by
  rcases storeAllocRatio_cases assign late s val with ⟨-, hs⟩ | ⟨hacc, -⟩
  · exact hs.imp_left fun hs => ⟨s, hs, h⟩
  · exact absurd (hval.symm.trans hacc) (by simp)

/-- Writes whose handler does not set up the pages again keep the buffer sound. -/
lemma Sound.store (h : s.Sound) (hw : w.reinits = false) :
    (∃ s', s.store late w = .ok s' ∧ s'.Sound) ∨ s.store late w = .error .spin := by
  cases w with
  | bufferState val => exact .inl (h.storeBufferState late val)
  | bufferSize val =>
    cases val with
    | none => exact .inl ⟨s, rfl, h⟩
    | some size => exact absurd hw (by simp [SysfsWrite.reinits])
  | superpageAllocOrder val =>
    cases val with
    | none => exact .inl ⟨s, rfl, h⟩
    | some order => exact .inl (h.update late _)
  | hotPageFifoAllocRatio val =>
    exact h.storeAllocRatio_of_not_accepts late
      (fun p r => { p with hotPageFifoAllocRatio := r }) hw
  | victimQueueAllocRatio val =>
    exact h.storeAllocRatio_of_not_accepts late
      (fun p r => { p with victimQueueAllocRatio := r }) hw

lemma Sound.stores {x : SysfsWrite × ℕ} (h : s.Sound) (hx : x.1.reinits = false)
    (hs : s.Stores x s') : s'.Sound := by
  rw [Stores] at hs
  rcases h.store x.2 hx with ⟨t, ht, hsound⟩ | hspin
  · obtain rfl := Except.ok.inj (ht.symm.trans hs)
    exact hsound
  · rw [hspin] at hs
    cases hs

/-! ### Handlers that do -/

/-- The buffer has just been loaded with twice as many evictors as are counted, or there is none. -/
lemma Sound.updateAndInit (h : s.Sound) (p : BufLdParams) :
    { s with ldParams := p }.updateAndInit late = .error .nullDeref ∨
      ∃ s', { s with ldParams := p }.updateAndInit late = .ok s' ∧ ¬s'.Lifecycle := by
  unfold DimmapBuffer.updateAndInit
  cases h with
  | unloaded => exact .inl rfl
  | loaded p₀ q =>
    have hup : { DimmapBuffer.loaded p₀ q with ldParams := p }.updateDimmapBufLdParams late =
        .ok (DimmapBuffer.loaded p p) := update_loaded late p q
    rw [hup]
    right
    refine ⟨_, rfl, fun hlife => ?_⟩
    obtain ⟨b, hb, hinits, -⟩ := hlife.1 rfl
    obtain rfl := Option.some.inj hb
    exact absurd hinits (by simp)

lemma Sound.storeAllocRatio_of_accepts (h : s.Sound)
    (assign : BufLdParams → Fraction → BufLdParams) {val : Option (ℤ × ℤ)}
    (hval : (val.any fun r => acceptsRatio r.2) = true) :
    storeAllocRatio assign late s val = .error .nullDeref ∨
      ∃ s', storeAllocRatio assign late s val = .ok s' ∧ ¬s'.Lifecycle := by
  rcases storeAllocRatio_cases assign late s val with ⟨hacc, -⟩ | ⟨-, p, hs⟩
  · exact absurd (hacc.symm.trans hval) (by simp)
  · rw [hs]
    exact h.updateAndInit late p

lemma Sound.store_reinits (h : s.Sound) (hw : w.reinits = true) :
    s.store late w = .error .nullDeref ∨ ∃ s', s.store late w = .ok s' ∧ ¬s'.Lifecycle := by
  cases w with
  | bufferState val => exact absurd hw (by simp [SysfsWrite.reinits])
  | bufferSize val =>
    cases val with
    | none => exact absurd hw (by simp [SysfsWrite.reinits])
    | some size => exact h.updateAndInit late _
  | superpageAllocOrder val => exact absurd hw (by simp [SysfsWrite.reinits])
  | hotPageFifoAllocRatio val =>
    exact h.storeAllocRatio_of_accepts late (fun p r => { p with hotPageFifoAllocRatio := r }) hw
  | victimQueueAllocRatio val =>
    exact h.storeAllocRatio_of_accepts late (fun p r => { p with victimQueueAllocRatio := r }) hw

lemma Sound.survives_iff (h : s.Sound) : s.Survives late w ↔ w.reinits = false := by
  constructor
  · intro hs
    by_contra hw
    rcases h.store_reinits late (Bool.eq_true_of_not_eq_false hw) with hnull | ⟨s', hok, hlife⟩
    · exact hs.1 hnull
    · exact hlife (hs.2 s' hok)
  · intro hw
    rcases h.store late hw with ⟨s', hok, hsound⟩ | hspin
    · refine ⟨by simp [hok], fun t ht => ?_⟩
      obtain rfl := Except.ok.inj (hok.symm.trans ht)
      exact hsound.lifecycle
    · exact ⟨by simp [hspin], fun t ht => by simp [hspin] at ht⟩

lemma sound_run {size : BitVec 64} {ws : List (SysfsWrite × ℕ)} (h : Run Stores (init size) ws s)
    (hws : ∀ x ∈ ws, x.1.reinits = false) : s.Sound := by
  have hquiet : Run (fun s x s' => x.1.reinits = false ∧ Stores s x s') (init size) ws s :=
    h.mono_of_mem fun _ x _ hx hs => ⟨hws x hx, hs⟩
  exact hquiet.invariant (fun _ _ _ hs hx => hs.stores hx.1 hx.2) (sound_init size)

/-! ### Every sequence of writes -/

/-- As long as no write is accepted by a handler that sets up the pages again, the buffer is set up
once and has its evictors, and the first such write either goes through a null pointer or leaves a
buffer with pages set up twice. -/
theorem lifecycle_run {size : BitVec 64} {ws : List (SysfsWrite × ℕ)}
    (h : Run Stores (init size) ws s) (hws : ∀ x ∈ ws, x.1.reinits = false) :
    s.Lifecycle ∧ ∀ late w, s.Survives late w ↔ w.reinits = false :=
  have hsound := sound_run h hws
  ⟨hsound.lifecycle, fun late _ => hsound.survives_iff late⟩

def execAll (s : DimmapBuffer) (ws : List (SysfsWrite × ℕ)) : Option DimmapBuffer :=
  ws.foldlM (fun s x => (s.store x.2 x.1).toOption) s

/-- The buffer is loaded, reallocated for another order, and unloaded and loaded again. -/
def reloads : List (SysfsWrite × ℕ) :=
  [(.bufferState (some 1), 0), (.superpageAllocOrder (some 1), 3), (.bufferState (some 0), 0),
    (.hotPageFifoAllocRatio (some (1, 3)), 0), (.bufferState (some 1), 0)]

theorem lifecycle_run_reloads :
    ∃ s, Run Stores (init 1024) reloads s ∧ s.bufferState = 1 ∧
      s.Lifecycle ∧ ∀ late w, s.Survives late w ↔ w.reinits = false := by
  obtain ⟨s, hs⟩ : ∃ s, (init 1024).execAll reloads = some s :=
    Option.isSome_iff_exists.1 (by decide)
  have hrun : Run Stores (init 1024) reloads s :=
    Run.of_foldlM (fun _ _ _ h => Except.toOption_eq_some.1 h) hs
  refine ⟨s, hrun, ?_, lifecycle_run hrun (by decide)⟩
  have hstate : ((init 1024).execAll reloads).map bufferState = some 1 := by decide
  rw [hs] at hstate
  exact Option.some.inj hstate

/-- A write to `1_buffer_size` sets up the pages of a loaded buffer twice and starts twice as many
evictors as it counts, and dereferences the null pointer when there is no buffer. -/
theorem bufferSize_breaks_lifecycle :
    (∃ s, Run Stores (init 1024) [(.bufferState (some 1), 0), (.bufferSize (some 2048), 0)] s ∧
      s.bufferState = 1 ∧ s.bufData.map FifoBuffer.inits = some 2 ∧ s.running = 16 ∧
      s.activeEvictors = 8 ∧ ¬s.Lifecycle) ∧
    (init 1024).store 0 (.bufferSize (some 2048)) = .error .nullDeref := by
  constructor
  · let p : BufLdParams := .init 2048
    refine ⟨⟨1, p, some ⟨p, 2, 16⟩, 8, 0⟩, ?_, rfl, rfl, rfl, rfl, ?_⟩
    · exact Run.of_foldlM (fun _ _ _ h => Except.toOption_eq_some.1 h)
        (f := fun s x => (s.store x.2 x.1).toOption) (by decide)
    · intro hlife
      obtain ⟨b, hb, hinits, -⟩ := hlife.1 rfl
      obtain rfl := Option.some.inj hb
      exact absurd hinits (by decide)
  · rfl

end DimmapBuffer

end FastMap
