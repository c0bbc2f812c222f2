import FastMap.Lib.Loop
import FastMap.Lifecycle

/-!
# The ratios

`1_hot_page_fifo_alloc_ratio` and `1_victim_queue_alloc_ratio` are written and read as a fraction,
and stored as a multiplier and the logarithm of the denominator. The handlers look for the logarithm
in a loop that compares `1 << i` with the denominator. Numbers are 32-bit words here, and the loop
is one that may not end. For the denominators for which it does, the handlers are those of
`Lifecycle`.
-/

namespace FastMap

/-! ### The handlers -/

/-- `1 << i` of an `int`; the processor takes a shift count modulo the word size. -/
def intShl (i : BitVec 32) : BitVec 32 := 1#32 <<< (i.toNat % 32)

/-- The variables of the loop. -/
structure ShiftVars where
  i : BitVec 32
  logb2Shift : BitVec 32
  deriving DecidableEq, Repr

/-- `for (i = 0; (1 << i) < denominator; i++) logb2_shift = i + 1;` -/
def shiftLoop (denominator : BitVec 32) (fuel : ℕ) : Option ShiftVars :=
  Loop.run (fun s => some ((intShl s.i).slt denominator)) (fun s => some ⟨s.i + 1, s.i + 1⟩)
    fuel ⟨0, 0⟩

/-- The parameters that are ratios. -/
inductive RatioField where
  | hotPageFifoAllocRatio
  | victimQueueAllocRatio
  deriving DecidableEq, Repr

namespace RatioField

def get : RatioField → BufLdParams → Fraction
  | hotPageFifoAllocRatio, p => p.hotPageFifoAllocRatio
  | victimQueueAllocRatio, p => p.victimQueueAllocRatio

def set : RatioField → BufLdParams → Fraction → BufLdParams
  | hotPageFifoAllocRatio, p, r => { p with hotPageFifoAllocRatio := r }
  | victimQueueAllocRatio, p, r => { p with victimQueueAllocRatio := r }

@[simp] lemma get_set (f : RatioField) (p : BufLdParams) (r : Fraction) :
    f.get (f.set p r) = r := by
  cases f <;> rfl

end RatioField

/-- What a handler has done when it goes on to the buffer or returns. -/
structure RatioStore where
  /-- The ratio has been assigned. -/
  assigned : Bool
  ldParams : BufLdParams
  /-- The text of the `printk`. -/
  alert : Option String
  ret : ℕ
  deriving DecidableEq, Repr

/-- The text for a denominator that is refused. -/
def alertText (denominator logb2Shift : BitVec 32) : String :=
  "The specified denominator (" ++ toString denominator.toInt ++
    ") cannot be encoded as the logb2 (" ++ toString logb2Shift.toInt ++
    ") of the provided value.\n"

/-- `store_ld_param_hot_page_fifo_alloc_ratio` and `store_ld_param_victim_queue_alloc_ratio`, for
numbers that `sscanf` has read, up to the calls after the assignments. -/
def RatioField.storeRatio (f : RatioField) (fuel count : ℕ) (p : BufLdParams)
    (mul denominator : BitVec 32) : Option RatioStore :=
  match shiftLoop denominator fuel with
  | none => none
  | some s =>
    if intShl s.logb2Shift ≠ denominator then
      some ⟨false, p, some (alertText denominator s.logb2Shift), count⟩
    else some ⟨true, f.set p ⟨mul.toInt, s.logb2Shift.toNat⟩, none, count⟩

/-- What the format `%d/%d` with a newline prints. -/
def ratioText (mul denominator : ℤ) : String := toString mul ++ "/" ++ toString denominator ++ "\n"

/-- `SHOW_LD_PARAM_TUPLE` for a ratio. -/
def RatioField.showRatio (f : RatioField) (p : BufLdParams) : String :=
  ratioText (f.get p).mul (intShl (BitVec.ofNat 32 (f.get p).logb2Shift)).toInt

/-! ### The loop -/

section loop

variable {d : BitVec 32} {n fuel : ℕ}

lemma toInt_intShl {i : ℕ} (hi : i < 31) : (intShl (BitVec.ofNat 32 i)).toInt = 2 ^ i := by
  have hall : ∀ i < 31, (intShl (BitVec.ofNat 32 i)).toInt = 2 ^ i := by decide
  exact hall i hi

/-- No shift is larger than `2 ^ 30`: the next one is negative, and then they start again. -/
lemma toInt_intShl_le (i : BitVec 32) : (intShl i).toInt ≤ 2 ^ 30 := by
  have hall : ∀ k < 32, (1#32 <<< k).toInt ≤ 2 ^ 30 := by decide
  exact hall _ (Nat.mod_lt _ (by omega))

/-- The loop does not end for a denominator above all shifts. -/
lemma shiftLoop_eq_none (hd : 2 ^ 30 < d.toInt) (fuel : ℕ) : shiftLoop d fuel = none := by
  refine Loop.run_eq_none (I := fun _ => True) ?_ (fun _ _ _ _ => trivial) trivial fuel
  intro s _
  rw [BitVec.slt, decide_eq_true ((toInt_intShl_le s.i).trans_lt hd)]

/-- The logarithm, rounded up. -/
lemma logb2Shift_eq_some {d : ℤ} :
    logb2Shift d = some n ↔ n < 31 ∧ d ≤ 2 ^ n ∧ ∀ i < n, 2 ^ i < d := by
  simp only [logb2Shift, List.find?_range_eq_some, List.mem_range, decide_eq_true_eq,
    Bool.not_eq_true', decide_eq_false_iff_not, not_le]
  tauto

lemma logb2Shift_eq_none {d : ℤ} : logb2Shift d = none ↔ 2 ^ 30 < d := by
  simp only [logb2Shift, List.find?_eq_none, List.mem_range, decide_eq_true_eq, not_le]
  constructor
  · intro h
    exact h 30 (by omega)
  · intro h i hi
    have hle : (2 : ℤ) ^ i ≤ 2 ^ 30 := pow_le_pow_right₀ (by omega) (by omega)
    exact hle.trans_lt h

/-- The loop finds the logarithm that `Lifecycle` takes. -/
lemma shiftLoop_eq_some (h : logb2Shift d.toInt = some n) (hfuel : n < fuel) :
    shiftLoop d fuel = some ⟨BitVec.ofNat 32 n, BitVec.ofNat 32 n⟩ := by
  obtain ⟨hn, hle, hlt⟩ := logb2Shift_eq_some.mp h
  let f : ℕ → ShiftVars := fun i => ⟨BitVec.ofNat 32 i, BitVec.ofNat 32 i⟩
  refine Loop.run_eq_of_states (f := f) ?_ ?_ ?_ hfuel
  · intro i hi
    have hcond : (intShl (f i).i).toInt < d.toInt := by
      rw [toInt_intShl (hi.trans hn)]
      exact hlt i hi
    rw [BitVec.slt, decide_eq_true hcond]
  · intro i _
    simp only [f, BitVec.ofNat_add]
    rfl
  · have hcond : ¬ (intShl (f n).i).toInt < d.toInt := by
      rw [toInt_intShl hn]
      exact not_lt.mpr hle
    rw [BitVec.slt, decide_eq_false hcond]

lemma shiftLoop_mono {fuel' : ℕ} {s : ShiftVars} (h : shiftLoop d fuel = some s)
    (hle : fuel ≤ fuel') : shiftLoop d fuel' = some s :=
  Loop.run_mono h hle

/-- A positive power of two. -/
def IsPowTwo (d : BitVec 32) : Prop := ∃ n : ℕ, d.toInt = 2 ^ n

/-- The logarithm is exact for the powers of two. -/
lemma pow_logb2Shift_iff (h : logb2Shift d.toInt = some n) : 2 ^ n = d.toInt ↔ IsPowTwo d := by
  obtain ⟨hn, hle, hlt⟩ := logb2Shift_eq_some.mp h
  constructor
  · exact fun heq => ⟨n, heq.symm⟩
  · rintro ⟨m, hm⟩
    rw [hm] at hle ⊢
    have hmn : m ≤ n := (pow_le_pow_iff_right₀ (by norm_num)).mp hle
    have hnm : n ≤ m := by
      by_contra hc
      exact absurd (hlt m (not_le.mp hc)) (by rw [hm]; exact lt_irrefl _)
    rw [le_antisymm hmn hnm]

/-- The code takes the shift back to compare it with the denominator. -/
lemma intShl_eq_iff (hn : n < 31) : intShl (BitVec.ofNat 32 n) = d ↔ 2 ^ n = d.toInt := by
  rw [← toInt_intShl hn]
  exact ⟨fun h => congrArg BitVec.toInt h, BitVec.eq_of_toInt_eq⟩

end loop

namespace RatioField

variable {f : RatioField} {p : BufLdParams} {mul d : BitVec 32} {n fuel fuel' count : ℕ}
  {o : RatioStore}

/-! ### The outcome -/

lemma storeRatio_of_gt (f : RatioField) (count : ℕ) (p : BufLdParams) (mul : BitVec 32)
    (hd : 2 ^ 30 < d.toInt) (fuel : ℕ) : f.storeRatio fuel count p mul d = none := by
  rw [storeRatio, shiftLoop_eq_none hd]

/-- If the loop ends, the ratio is assigned if and only if the denominator is a power of two. -/
lemma storeRatio_of_logb2Shift (f : RatioField) (count : ℕ) (p : BufLdParams) (mul : BitVec 32)
    (h : logb2Shift d.toInt = some n) (hfuel : n < fuel) :
    f.storeRatio fuel count p mul d =
      if 2 ^ n = d.toInt then some ⟨true, f.set p ⟨mul.toInt, n⟩, none, count⟩
      else some ⟨false, p, some (alertText d (BitVec.ofNat 32 n)), count⟩ := by
  have hn : n < 31 := (logb2Shift_eq_some.mp h).1
  have hword : (BitVec.ofNat 32 n).toNat = n := by
    rw [BitVec.toNat_ofNat, Nat.mod_eq_of_lt (by omega)]
  simp only [storeRatio, shiftLoop_eq_some h hfuel, ne_eq, intShl_eq_iff hn, hword, ite_not]

lemma storeRatio_mono (h : f.storeRatio fuel count p mul d = some o) (hle : fuel ≤ fuel') :
    f.storeRatio fuel' count p mul d = some o := by
  rw [storeRatio] at h ⊢
  cases hloop : shiftLoop d fuel with
  | none => simp [hloop] at h
  | some s =>
    rw [shiftLoop_mono hloop hle]
    rwa [hloop] at h

/-- What a handler does, given enough passes of its loop. -/
lemma storeRatio_cases (f : RatioField) (count : ℕ) (p : BufLdParams) (mul d : BitVec 32) :
    (2 ^ 30 < d.toInt ∧ ∀ fuel, f.storeRatio fuel count p mul d = none) ∨
    (∃ n < 31, 2 ^ n = d.toInt ∧ IsPowTwo d ∧ ∀ fuel ≥ 31,
      f.storeRatio fuel count p mul d = some ⟨true, f.set p ⟨mul.toInt, n⟩, none, count⟩) ∨
    (¬ IsPowTwo d ∧ ∃ text, ∀ fuel ≥ 31,
      f.storeRatio fuel count p mul d = some ⟨false, p, some text, count⟩) := by
  cases hlog : logb2Shift d.toInt with
  | none =>
    have hd := logb2Shift_eq_none.mp hlog
    exact Or.inl ⟨hd, storeRatio_of_gt f count p mul hd⟩
  | some n =>
    have hn := (logb2Shift_eq_some.mp hlog).1
    have hpow := pow_logb2Shift_iff hlog
    have hresult := fun fuel (hfuel : 31 ≤ fuel) =>
      storeRatio_of_logb2Shift f count p mul hlog (hn.trans_le hfuel)
    right
    by_cases heq : 2 ^ n = d.toInt
    · left
      exact ⟨n, hn, heq, hpow.mp heq, fun fuel hfuel => (hresult fuel hfuel).trans (if_pos heq)⟩
    · right
      exact ⟨fun hd => heq (hpow.mpr hd), _,
        fun fuel hfuel => (hresult fuel hfuel).trans (if_neg heq)⟩

/-- The ratio is shown as it was written. -/
lemma showRatio_set (f : RatioField) (p : BufLdParams) (mul : BitVec 32) (hn : n < 31)
    (h : 2 ^ n = d.toInt) : f.showRatio (f.set p ⟨mul.toInt, n⟩) = ratioText mul.toInt d.toInt := by
  rw [showRatio, get_set, toInt_intShl hn, h]

/-- A write of `mul/denominator` behaves: the loop of the handler ends; the ratio is stored if and
only if the denominator is a positive power of two, and then the shift gives the denominator back
and the ratio is shown as it was written; otherwise the parameters stay. -/
structure RoundTrips (f : RatioField) (count : ℕ) (p : BufLdParams) (mul d : BitVec 32) :
    Prop where
  ends : ∃ fuel, (shiftLoop d fuel).isSome
  stored_iff : (∃ fuel o, f.storeRatio fuel count p mul d = some o ∧ o.assigned = true) ↔ IsPowTwo d
  shown {fuel : ℕ} {o : RatioStore} : f.storeRatio fuel count p mul d = some o →
    o.assigned = true → intShl (BitVec.ofNat 32 (f.get o.ldParams).logb2Shift) = d ∧
      f.showRatio o.ldParams = ratioText mul.toInt d.toInt
  unchanged : ¬ IsPowTwo d → ∃ fuel o, f.storeRatio fuel count p mul d = some o ∧ o.ldParams = p

/-- A written ratio is shown again, or refused, if and only if its denominator is at most `2 ^ 30`.
Above, the handler does not return. -/
theorem storeRatio_roundTrips_iff (f : RatioField) (count : ℕ) (p : BufLdParams)
    (mul d : BitVec 32) : f.RoundTrips count p mul d ↔ d.toInt ≤ 2 ^ 30 := by
  constructor
  · intro h
    by_contra hd
    obtain ⟨fuel, hends⟩ := h.ends
    rw [shiftLoop_eq_none (not_le.mp hd)] at hends
    exact Bool.false_ne_true hends
  · intro hd
    have hends : ∀ {o}, f.storeRatio 31 count p mul d = some o → (shiftLoop d 31).isSome := by
      intro o hs
      rw [storeRatio] at hs
      cases hloop : shiftLoop d 31 with
      | none => simp [hloop] at hs
      | some s => rfl
    -- a result for some number of passes is the one for 31 of them
    have hsame : ∀ {fuel o o'}, f.storeRatio fuel count p mul d = some o →
        (∀ fuel ≥ 31, f.storeRatio fuel count p mul d = some o') → o = o' := by
      intro fuel o o' ho ho'
      have hmore := storeRatio_mono ho (le_max_left fuel 31)
      exact Option.some.inj (hmore.symm.trans (ho' _ (le_max_right fuel 31)))
    rcases f.storeRatio_cases count p mul d with ⟨hgt, -⟩ | ⟨n, hn, heq, hpow, hs⟩ | ⟨hpow, _, hs⟩
    · exact absurd hd (not_le.mpr hgt)
    · refine ⟨⟨31, hends (hs 31 le_rfl)⟩, ?_, ?_, fun hd => absurd hpow hd⟩
      · exact ⟨fun _ => hpow, fun _ => ⟨31, _, hs 31 le_rfl, rfl⟩⟩
      · intro fuel o ho _
        obtain rfl := hsame ho hs
        refine ⟨?_, showRatio_set f p mul hn heq⟩
        rw [get_set]
        exact (intShl_eq_iff hn).mpr heq
    · have hrefused : ∀ {fuel o}, f.storeRatio fuel count p mul d = some o →
          o.assigned = false := by
        intro fuel o ho
        rw [hsame ho hs]
      refine ⟨⟨31, hends (hs 31 le_rfl)⟩, ⟨?_, fun hd => absurd hd hpow⟩, ?_,
        fun _ => ⟨31, _, hs 31 le_rfl, rfl⟩⟩
      · rintro ⟨fuel, o, ho, hassigned⟩
        exact absurd (hrefused ho) (by simp [hassigned])
      · intro fuel o ho hassigned
        exact absurd (hrefused ho) (by simp [hassigned])

/-- The handler of `1/1073741825` does not return. -/
theorem storeRatio_spins :
    ¬ ∀ (f : RatioField) (count : ℕ) (p : BufLdParams) (mul d : BitVec 32),
      f.RoundTrips count p mul d := by
  intro hall
  obtain ⟨fuel, hends⟩ := (hall .hotPageFifoAllocRatio 12 (.init 1024) 1 1073741825).ends
  rw [shiftLoop_eq_none (by decide)] at hends
  exact Bool.false_ne_true hends

/-- The write to the attribute of the ratio. -/
def write : RatioField → ℤ × ℤ → SysfsWrite
  | hotPageFifoAllocRatio, r => .hotPageFifoAllocRatio (some r)
  | victimQueueAllocRatio, r => .victimQueueAllocRatio (some r)

end RatioField

/-! ### The rest of the handlers -/

namespace DimmapBuffer

variable {s s' : DimmapBuffer} {f : RatioField} {mul d : BitVec 32} {late : ℕ}

lemma ldParams_of_initMmapParams (h : s.initMmapParams = .ok s') : s'.ldParams = s.ldParams := by
  unfold initMmapParams at h
  split at h
  · cases h
  · cases h
    rfl

lemma ldParams_of_deallocate (h : s.deallocateRuntimeBuffer late = .ok s') :
    s'.ldParams = s.ldParams := by
  unfold deallocateRuntimeBuffer cleanupMmapBufferData at h
  cases hb : s.bufData with
  | none =>
    simp only [hb] at h
    cases h
    rfl
  | some b =>
    simp only [hb] at h
    split_ifs at h
    · cases h
      rfl

lemma ldParams_of_allocate (h : s.allocateAndInitRuntimeBuffer = .ok s') :
    s'.ldParams = s.ldParams := by
  unfold allocateAndInitRuntimeBuffer at h
  split at h
  · cases h
  · next t hinit =>
    have hparams := ldParams_of_initMmapParams hinit
    cases h
    exact hparams

/-- Loading the buffer again does not change the parameters. -/
lemma ldParams_of_updateAndInit (h : s.updateAndInit late = .ok s') : s'.ldParams = s.ldParams := by
  unfold updateAndInit updateDimmapBufLdParams at h
  split_ifs at h
  · cases hd : s.deallocateRuntimeBuffer late with
    | error x => simp [hd] at h
    | ok t =>
      simp only [hd] at h
      cases ha : t.allocateAndInitRuntimeBuffer with
      | error x => simp [ha] at h
      | ok u =>
        simp only [ha] at h
        rw [ldParams_of_initMmapParams h, ldParams_of_allocate ha, ldParams_of_deallocate hd]
  · exact ldParams_of_initMmapParams h

/-- The handlers of `Lifecycle` are those on words, followed by what they do to the buffer. -/
lemma store_write (f : RatioField) (late count : ℕ) (s : DimmapBuffer) (mul d : BitVec 32) :
    s.store late (f.write (mul.toInt, d.toInt)) =
      match f.storeRatio 31 count s.ldParams mul d with
      | none => .error .spin
      | some o =>
        if o.assigned then { s with ldParams := o.ldParams }.updateAndInit late else .ok s := by
  have hstore : s.store late (f.write (mul.toInt, d.toInt)) =
      storeAllocRatio f.set late s (some (mul.toInt, d.toInt)) := by
    cases f <;> rfl
  rw [hstore, storeAllocRatio]
  cases hlog : logb2Shift d.toInt with
  | none => simp only [f.storeRatio_of_gt _ _ _ (logb2Shift_eq_none.mp hlog)]
  | some n =>
    have hn := (logb2Shift_eq_some.mp hlog).1
    rw [f.storeRatio_of_logb2Shift _ _ _ hlog hn]
    by_cases heq : (2 : ℤ) ^ n = d.toInt
    · simp only [heq, ne_eq, not_true_eq_false, if_false, if_true]
    · simp only [heq, ne_eq, not_false_eq_true, if_true, if_false, Bool.false_eq_true]

/-- After a write that completes, the ratio is shown as it was written, or nothing has changed. -/
lemma shown_of_store (h : s.store late (f.write (mul.toInt, d.toInt)) = .ok s') :
    (IsPowTwo d ∧ f.showRatio s'.ldParams = ratioText mul.toInt d.toInt) ∨
      (¬ IsPowTwo d ∧ s' = s) := by
  rw [store_write f late 0] at h
  rcases f.storeRatio_cases 0 s.ldParams mul d with
    ⟨-, hs⟩ | ⟨n, hn, heq, hpow, hs⟩ | ⟨hpow, text, hs⟩
  · rw [hs] at h
    cases h
  · rw [hs 31 le_rfl] at h
    refine Or.inl ⟨hpow, ?_⟩
    rw [ldParams_of_updateAndInit h]
    exact f.showRatio_set s.ldParams mul hn heq
  · rw [hs 31 le_rfl] at h
    cases h
    exact Or.inr ⟨hpow, rfl⟩

end DimmapBuffer

end FastMap
