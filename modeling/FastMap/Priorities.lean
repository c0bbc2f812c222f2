import FastMap.Accounting
import FastMap.BitmapIoctls
import FastMap.RawRelease

/-!
# Page priorities

A raw device has a priority for each of its pages, in the array `rdd->meta`. Two requests of
`raw_ioctl` store priorities, a fault that brings in a page reads the priority of the page, and one
of the requests also looks whether the page is in the buffer.
-/

namespace FastMap

variable {C : Type*}

/-- `MAX_PRIORITIES` -/
def maxPriorities : ℕ := 16

/-- `struct dmap_page_prio` -/
structure DmapPagePrio where
  pageno : BitVec 64
  prio : BitVec 8
  deriving DecidableEq, Repr

/-- The buffer, and `rdd->meta[i].priority` of every device. The array has as many elements as the
device has pages; what lies behind it is memory of others. -/
structure RankedState (C : Type*) where
  st : State C
  priority : DevId → ℕ → BitVec 8

/-- The calls on the buffer, and the two requests on the descriptor of a pvd; `none` is an argument
that `copy_from_user` cannot read. -/
inductive PrioOp (C : Type*) where
  | call (op : Op C)
  | setPagePriority (v : PvdId) (arg : Option DmapPagePrio)
  | changePagePriority (v : PvdId) (arg : Option DmapPagePrio)

namespace RankedState

/-! ### The requests -/

/-- `rdd->meta[pageno].priority = prio` -/
def setPriority (x : RankedState C) (d : DevId) (pageno : ℕ) (prio : BitVec 8) : RankedState C :=
  { x with
    priority := Function.update x.priority d (Function.update (x.priority d) pageno prio) }

/-- `DMAP_SET_PAGE_PRIORITY`, with its return value. -/
def setPagePriority (x : RankedState C) (v : PvdId) : Option DmapPagePrio → ℤ × RankedState C
  | none => (-efault, x)
  | some a =>
    let d := (x.st.pvds v).bk
    if x.st.devPages d ≤ a.pageno.toNat then (-efault, x)
    else if maxPriorities ≤ a.prio.toNat then (0, x.setPriority d a.pageno.toNat 0)
    else (0, x.setPriority d a.pageno.toNat a.prio)

/-- `change_page_priority_fifo_buffer_t`; `change_priority` of the clean queues is `BUG()`. -/
def changePagePriorityFifo (e : Env C) (s : State C) (v : PvdId) (addr : Pgoff) : Except Halt ℤ :=
  match s.treeLookup e .rdx v addr with
  | none => .ok 0
  | some _ => .error .bug

/-- `DMAP_CHANGE_PAGE_PRIORITY`, with its return value. -/
def changePagePriority (e : Env C) (x : RankedState C) (v : PvdId) :
    Option DmapPagePrio → Except Halt (ℤ × RankedState C)
  | none => .ok (-efault, x)
  | some a =>
    let x := x.setPriority (x.st.pvds v).bk a.pageno.toNat a.prio
    (changePagePriorityFifo e x.st v a.pageno.toNat).map fun _ => (0, x)

def exec (e : Env C) (x : RankedState C) : PrioOp C → Except Halt (ℤ × RankedState C)
  | .call op => (x.st.exec e op).map fun s => (0, { x with st := s })
  | .setPagePriority v arg => .ok (x.setPagePriority v arg)
  | .changePagePriority v arg => x.changePagePriority e v arg

/-- When a call is made; the two requests are requests on a raw device. -/
def issued (e : Env C) (x : RankedState C) : PrioOp C → Bool
  | .call op => x.st.issued e op
  | .setPagePriority v _ => (x.st.pvds v).type == .blkd
  | .changePagePriority v _ => (x.st.pvds v).type == .blkd

/-! ### Accesses to the array -/

/-- `num_pages` of a fault on page `i` of an area of the pvd. -/
def faultPages (s : State C) (vma : VmaId) (i : ℕ) (v : PvdId) : ℤ :=
  State.numPages (s.vmFault vma i).pgoff (State.int32 (s.devPages (s.pvds v).bk))

/-- The elements that a fault reads in `dmap_set_page_priority`: the `num_pages` pages from
`vmf->pgoff` on, if the first was not found in the buffer. -/
def faultIndices (e : Env C) (s : State C) (vma : VmaId) (i : ℕ) (f : State.FaultEnv C) :
    List (DevId × ℕ) :=
  let vmf := s.vmFault vma i
  match s.vmaPvd vma with
  | none => []
  | some v =>
    if vmf.address < (s.vmas vma).vmStart ∨ (s.vmas vma).vmEnd ≤ vmf.address ∨
        (s.pvds v).type ≠ .blkd then []
    else
      match State.findPage e v vmf.pgoff f.attempts s with
      | .ok (_, false, _) =>
        (List.range (faultPages s vma i v).toNat).map fun k => ((s.pvds v).bk, vmf.pgoff + k)
      | _ => []

/-- The elements of the arrays that a call or a request accesses. -/
def indices (e : Env C) (x : RankedState C) : PrioOp C → List (DevId × ℕ)
  | .call (.fault vma i f) => faultIndices e x.st vma i f
  | .call _ => []
  | .setPagePriority _ none => []
  | .setPagePriority v (some a) =>
    if x.st.devPages (x.st.pvds v).bk ≤ a.pageno.toNat then []
    else [((x.st.pvds v).bk, a.pageno.toNat)]
  | .changePagePriority _ none => []
  | .changePagePriority v (some a) => [((x.st.pvds v).bk, a.pageno.toNat)]

/-- `device_size_in_pages` is checked: the request names a page that the device does not have. -/
def OutOfDevice (x : RankedState C) : PrioOp C → Prop
  | .call _ => False
  | .setPagePriority v arg => ∃ a ∈ arg, x.st.devPages (x.st.pvds v).bk ≤ a.pageno.toNat
  | .changePagePriority v arg => ∃ a ∈ arg, x.st.devPages (x.st.pvds v).bk ≤ a.pageno.toNat

/-! ### Soundness -/

/-- Every priority that is stored for a page of a device is one. -/
def Ranked (x : RankedState C) : Prop :=
  ∀ d i, i < x.st.devPages d → (x.priority d i).toNat < maxPriorities

/-- A call or request stays in the arrays, is refused without effect if it is about no page of the
device, and does not reach the `BUG()`. -/
structure Safe (e : Env C) (x : RankedState C) (op : PrioOp C) : Prop where
  inBounds {a : DevId × ℕ} : a ∈ x.indices e op → a.2 < x.st.devPages a.1
  refused : x.OutOfDevice op → ∃ r, r ≠ 0 ∧ x.exec e op = .ok (r, x)
  noBug : x.exec e op ≠ .error .bug

/-- A change of priority is one to a priority, of a page of the device that is not in the buffer;
and the pages that a fault in an area of a device goes on to bring in are pages of the device. -/
def Careful (e : Env C) (x : RankedState C) : PrioOp C → Prop
  | .call (.fault vma i _) => ∀ v ∈ x.st.vmaPvd vma, (x.st.pvds v).type = .blkd →
    0 < faultPages x.st vma i v →
    (x.st.vmFault vma i).pgoff + (faultPages x.st vma i v).toNat ≤ x.st.devPages (x.st.pvds v).bk
  | .changePagePriority v (some a) =>
    a.pageno.toNat < x.st.devPages (x.st.pvds v).bk ∧ a.prio.toNat < maxPriorities ∧
      x.st.treeLookup e .rdx v a.pageno.toNat = none
  | _ => True

instance (e : Env C) (x : RankedState C) : (op : PrioOp C) → Decidable (x.Careful e op)
  | .call (.fault vma _ _) => inferInstanceAs (Decidable (∀ v ∈ x.st.vmaPvd vma, _ → _ → _))
  | .call (.mkwrite _ _) => .isTrue trivial
  | .call (.store _ _ _) => .isTrue trivial
  | .call (.evictor _ _) => .isTrue trivial
  | .call (.writeDirty _ _) => .isTrue trivial
  | .call (.purge _) => .isTrue trivial
  | .call (.rawRelease _) => .isTrue trivial
  | .setPagePriority _ _ => .isTrue trivial
  | .changePagePriority _ none => .isTrue trivial
  | .changePagePriority _ (some _) => inferInstanceAs (Decidable (_ ∧ _ ∧ _))

/-- A completed call or request. -/
def Completes (e : Env C) (x : RankedState C) (op : PrioOp C) (x' : RankedState C) : Prop :=
  x.issued e op = true ∧ ∃ r, x.exec e op = .ok (r, x')

/-- A completed call or request that is careful. -/
def StepsCareful (e : Env C) (x : RankedState C) (op : PrioOp C) (x' : RankedState C) : Prop :=
  x.Careful e op ∧ Completes e x op x'

/-- The buffer when it is created, and priorities as `bind_set` initialises them. -/
def init (e : Env C) (w : State.World C) : RankedState C := ⟨.initParams e w, fun _ _ => 0⟩

variable {e : Env C} {x x' : RankedState C} {op : PrioOp C}

lemma ranked_setPriority (h : x.Ranked) {d : DevId} {i : ℕ} {prio : BitVec 8}
    (hp : prio.toNat < maxPriorities) : (x.setPriority d i prio).Ranked := by
  intro d' j hj
  have hold := h d' j hj
  simp only [setPriority]
  by_cases hd : d' = d
  · subst hd
    rw [Function.update_self]
    by_cases hji : j = i
    · rwa [hji, Function.update_self]
    · rwa [Function.update_of_ne hji]
  · rwa [Function.update_of_ne hd]

/-- Only pages from the one that the fault is on are looked up. -/
lemma mem_faultIndices {s : State C} {vma : VmaId} {i : ℕ} {f : State.FaultEnv C} {a : DevId × ℕ}
    (ha : a ∈ faultIndices e s vma i f) : ∃ v, s.vmaPvd vma = some v ∧ (s.pvds v).type = .blkd ∧
      a.1 = (s.pvds v).bk ∧ ∃ k < (faultPages s vma i v).toNat,
        a.2 = (s.vmFault vma i).pgoff + k := by
  simp only [faultIndices] at ha
  cases hv : s.vmaPvd vma with
  | none => simp [hv] at ha
  | some v =>
    simp only [hv] at ha
    split_ifs at ha with hc
    · exact absurd ha List.not_mem_nil
    · push Not at hc
      obtain ⟨-, -, ht⟩ := hc
      split at ha
      · obtain ⟨k, hk, rfl⟩ := List.mem_map.mp ha
        exact ⟨v, rfl, ht, rfl, k, List.mem_range.mp hk, rfl⟩
      · exact absurd ha List.not_mem_nil

/-- What an invariant of a run needs of the buffer. -/
structure Inv (e : Env C) (x : RankedState C) : Prop where
  quiet : x.st.Quiet e
  ranked : x.Ranked

lemma inv_init (e : Env C) (w : State.World C) : (init e w).Inv e := by
  refine ⟨State.quiet_initParams e w, ?_⟩
  intro d i _
  change (0 : BitVec 8).toNat < maxPriorities
  decide

lemma Inv.step (h : x.Inv e) (hs : Completes e x op x') (hc : x.Careful e op) : x'.Inv e := by
  obtain ⟨hi, r, hs⟩ := hs
  cases op with
  | call op =>
    obtain ⟨s, hexec, heq⟩ := Except.map_eq_ok.mp hs
    obtain ⟨-, rfl⟩ := Prod.mk.inj heq
    refine ⟨h.quiet.step ⟨hi, hexec⟩, ?_⟩
    have hdev : s.devPages = x.st.devPages :=
      congrArg State.Outside.devPages (h.quiet.outside_of_exec op hi hexec)
    intro d i hlt
    change i < s.devPages d at hlt
    rw [hdev] at hlt
    exact h.ranked d i hlt
  | setPagePriority v arg =>
    cases arg with
    | none =>
      obtain ⟨-, rfl⟩ : -efault = r ∧ x = x' := by simpa [exec, setPagePriority] using hs
      exact h
    | some a =>
      simp only [exec, setPagePriority, Except.ok.injEq] at hs
      split_ifs at hs with hout hmax
      · obtain ⟨-, rfl⟩ := Prod.mk.inj hs
        exact h
      · obtain ⟨-, rfl⟩ := Prod.mk.inj hs
        exact ⟨h.quiet, ranked_setPriority h.ranked (by decide)⟩
      · obtain ⟨-, rfl⟩ := Prod.mk.inj hs
        exact ⟨h.quiet, ranked_setPriority h.ranked (not_le.mp hmax)⟩
  | changePagePriority v arg =>
    cases arg with
    | none =>
      obtain ⟨-, rfl⟩ : -efault = r ∧ x = x' := by simpa [exec, changePagePriority] using hs
      exact h
    | some a =>
      obtain ⟨n, -, heq⟩ := Except.map_eq_ok.mp hs
      obtain ⟨-, rfl⟩ := Prod.mk.inj heq
      exact ⟨h.quiet, ranked_setPriority h.ranked hc.2.1⟩

lemma Inv.safe (h : x.Inv e) (hi : x.issued e op = true) (hc : x.Careful e op) : x.Safe e op := by
  cases op with
  | call op =>
    refine ⟨?_, fun hf => absurd hf id, ?_⟩
    · intro a ha
      cases op with
      | fault vma i f =>
        obtain ⟨v, hv, ht, hdev, k, hk, hpage⟩ := mem_faultIndices ha
        have hpages : (x.st.vmFault vma i).pgoff + (faultPages x.st vma i v).toNat ≤
            x.st.devPages (x.st.pvds v).bk := hc v hv ht (by omega)
        rw [hdev, hpage]
        exact (Nat.add_lt_add_left hk _).trans_le hpages
      | _ => exact absurd ha List.not_mem_nil
    · intro hb
      have hbug := h.quiet.exec_ne_bug hi
      cases hx : x.st.exec e op with
      | ok s => simp [exec, hx, Except.map] at hb
      | error y =>
        simp only [exec, hx, Except.map, Except.error.injEq] at hb
        rw [hx, hb] at hbug
        exact hbug rfl
  | setPagePriority v arg =>
    refine ⟨?_, ?_, by simp [exec]⟩
    · intro b hb
      cases arg with
      | none => exact absurd hb List.not_mem_nil
      | some a =>
        simp only [indices] at hb
        split_ifs at hb with hout
        · exact absurd hb List.not_mem_nil
        · rw [List.mem_singleton.mp hb]
          exact not_le.mp hout
    · rintro ⟨a, rfl, hout⟩
      exact ⟨-efault, by decide, by simp only [exec, setPagePriority, if_pos hout]⟩
  | changePagePriority v arg =>
    cases arg with
    | none =>
      refine ⟨fun hb => absurd hb List.not_mem_nil, ?_, by simp [exec, changePagePriority]⟩
      rintro ⟨a, ha, -⟩
      simp at ha
    | some a =>
      obtain ⟨hlt, -, hnone⟩ := hc
      refine ⟨?_, ?_, ?_⟩
      · intro b hb
        rw [List.mem_singleton.mp hb]
        exact hlt
      · rintro ⟨b, hb, hout⟩
        obtain rfl : a = b := by simpa using hb
        exact absurd hlt (not_lt.mpr hout)
      · have hlook : (x.setPriority (x.st.pvds v).bk a.pageno.toNat a.prio).st.treeLookup e .rdx v
            a.pageno.toNat = none := hnone
        simp [exec, changePagePriority, changePagePriorityFifo, hlook, Except.map]

/-- In every run of careful calls and requests the stored priorities are priorities, and what is
called or requested next stays in the arrays and away from the `BUG()`. -/
theorem priorities_sound (e : Env C) (w : State.World C) (ops : List (PrioOp C))
    (x : RankedState C) (hr : Run (StepsCareful e) (init e w) ops x) :
    x.Ranked ∧ ∀ op, x.issued e op = true → x.Careful e op → x.Safe e op := by
  have hinv : x.Inv e := by
    apply hr.invariant _ (inv_init e w)
    rintro x op x' h ⟨hc, hs⟩
    exact h.step hs hc
  exact ⟨hinv.ranked, fun op hi hc => hinv.safe hi hc⟩

/-- The state after a sequence of careful calls and requests, if all are issued and complete. -/
def execCareful (e : Env C) (x : RankedState C) (ops : List (PrioOp C)) :
    Option (RankedState C) :=
  ops.foldlM (fun x op =>
    if x.Careful e op ∧ x.issued e op = true then (x.exec e op).toOption.map Prod.snd else none) x

lemma run_execCareful {ops : List (PrioOp C)} (h : execCareful e x ops = some x') :
    Run (StepsCareful e) x ops x' := by
  refine Run.of_foldlM (fun x op x' hs => ?_) h
  split_ifs at hs with hc
  obtain ⟨⟨r, x''⟩, hexec, rfl⟩ := Option.map_eq_some_iff.mp hs
  exact ⟨hc.1, hc.2, r, Except.toOption_eq_some.mp hexec⟩

/-- A priority out of range, a change of a page that is not cached, and a fault on that page. -/
def rankThenFault : List (PrioOp ℕ) :=
  [.setPagePriority 0 (some ⟨1, 200⟩), .changePagePriority 0 (some ⟨2, 7⟩),
    .call (.fault 0 2 State.smallFault), .changePagePriority 0 none]

theorem priorities_sound_rankThenFault :
    ∃ x, Run (StepsCareful State.smallEnv) (init State.smallEnv State.rawWorld) rankThenFault x ∧
      x.Ranked ∧ x.Safe State.smallEnv (.setPagePriority 0 (some ⟨1000000, 3⟩)) := by
  have h : ((execCareful State.smallEnv (init State.smallEnv State.rawWorld) rankThenFault).map
      fun x => x.issued State.smallEnv (.setPagePriority 0 (some ⟨1000000, 3⟩))) = some true := by
    decide +kernel
  obtain ⟨x, hx, hi⟩ := Option.map_eq_some_iff.mp h
  have hr := run_execCareful hx
  obtain ⟨hranked, hsafe⟩ := priorities_sound State.smallEnv State.rawWorld rankThenFault x hr
  exact ⟨x, hr, hranked, hsafe _ hi trivial⟩

/-- A change of the priority of a page stores the value without the check that setting it makes. -/
theorem changed_not_ranked :
    ¬ ∀ (e : Env ℕ) (w : State.World ℕ) (ops : List (PrioOp ℕ)) (x : RankedState ℕ),
      Run (Completes e) (init e w) ops x →
        x.Ranked ∧ ∀ op, x.issued e op = true → x.Safe e op := by
  intro h
  let x₀ := init State.smallEnv State.rawWorld
  have hs : Completes State.smallEnv x₀ (.changePagePriority 0 (some ⟨0, 200⟩))
      (x₀.setPriority 0 0 200) := ⟨by decide, 0, rfl⟩
  obtain ⟨hranked, -⟩ := h State.smallEnv State.rawWorld _ _ (Run.nil.snoc hs)
  have hlt : (200 : BitVec 8).toNat < maxPriorities := by
    simpa [setPriority] using hranked 0 0 (by decide)
  exact absurd hlt (by decide)

end RankedState

end FastMap
