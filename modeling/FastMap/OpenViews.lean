import FastMap.Backing
import FastMap.Descriptors
import FastMap.InodeCache
import FastMap.StackReturns

/-!
# Views of an open file

`wrapfs_open`, `create_and_add_file_pvd` and `wrapfs_file_release` stand in several models, each
with its own part of the state: `Vfs` has the descriptors and pvds of all files, `OpenFiles` the
lower files of one of them, `InoCache` the steps of opens that overlap, and `Wrapfs` the references
to what is below. Here they are shown to be views of one another. A call on descriptors is matched
by calls on the table of a file and by steps of the cache, and the open of a regular file goes wrong
in the stack exactly when it does in the table.
-/

namespace FastMap

open State

namespace Vfs

variable {C : Type*} {e : Env C} {s s' : Vfs C} {ino : DevId} {i j : InfoId} {v : PvdId}

/-! ### What a call does to the descriptors -/

/-- The descriptors, the cache and the pvds stay as they are. -/
structure SameOpens (s s' : Vfs C) : Prop where
  cache : s'.inoPvdCache = s.inoPvdCache
  inUse : s'.pvdInUse = s.pvdInUse
  isOpen : s'.isOpen = s.isOpen
  info (j : InfoId) : (s'.st.infos j).pvd = (s.st.infos j).pvd
  pvds : s'.st.pvds = s.st.pvds

/-- Descriptor `i`, which was closed, is now open with the pvd `v`. -/
structure Opens (i : InfoId) (v : PvdId) (s s' : Vfs C) : Prop where
  closed : s.isOpen i = false
  isOpen : s'.isOpen = Function.update s.isOpen i true
  info : (s'.st.infos i).pvd = some v
  other {j : InfoId} : j ≠ i → (s'.st.infos j).pvd = (s.st.infos j).pvd

/-- Descriptor `i` is closed, and nothing else changes. -/
structure Closes (i : InfoId) (s s' : Vfs C) : Prop where
  opened : s.isOpen i = true
  cache : s'.inoPvdCache = s.inoPvdCache
  inUse : s'.pvdInUse = s.pvdInUse
  isOpen : s'.isOpen = Function.update s.isOpen i false
  other {j : InfoId} : j ≠ i → (s'.st.infos j).pvd = (s.st.infos j).pvd
  pvds : s'.st.pvds = s.st.pvds

/-- The pvd `v` is new. -/
structure Creates (v : PvdId) (t : PvdType) (bk : DevId) (s s' : Vfs C) : Prop where
  unused : s.pvdInUse v = false
  inUse : s'.pvdInUse = Function.update s.pvdInUse v true
  pvds : s'.st.pvds = Function.update s.st.pvds v ⟨t, bk, false, false, true, false⟩

/-- The file that descriptor `i` is open on may have been mapped, which marks its pvd. -/
structure Maps (i : InfoId) (v : PvdId) (s s' : Vfs C) : Prop where
  opened : s.isOpen i = true
  info : (s.st.infos i).pvd = some v
  cache : s'.inoPvdCache = s.inoPvdCache
  inUse : s'.pvdInUse = s.pvdInUse
  isOpen : s'.isOpen = s.isOpen
  infos (j : InfoId) : (s'.st.infos j).pvd = (s.st.infos j).pvd
  pvds : s'.st.pvds = if (s.st.pvds v).type = .file then
      Function.update s.st.pvds v { s.st.pvds v with mmaped := true, isMmap := true }
    else s.st.pvds

/-- An open finds the pvd of the file in the cache, or makes one. -/
lemma wrapfsOpen_cases (hs : s.wrapfsOpen ino i v = .ok s') :
    (∃ w, s.inoPvdCache ino = some w ∧ Opens i w s s' ∧ s'.inoPvdCache = s.inoPvdCache ∧
      s'.pvdInUse = s.pvdInUse ∧ s'.st.pvds = s.st.pvds) ∨
    s.inoPvdCache ino = none ∧ Opens i v s s' ∧ Creates v .file ino s s' ∧
      s'.inoPvdCache = Function.update s.inoPvdCache ino (some v) := by
  rw [Vfs.wrapfsOpen] at hs
  by_cases hi : s.isOpen i = true
  · simp [hi] at hs
  have hclosed : s.isOpen i = false := by simpa using hi
  rw [if_neg hi] at hs
  cases hc : s.inoPvdCache ino with
  | some w =>
    obtain rfl : s.setInfo i w = s' := by simpa [hc] using hs
    refine Or.inl ⟨w, rfl, ⟨hclosed, rfl, ?_, fun hj => ?_⟩, rfl, rfl, rfl⟩
    · simp [Vfs.setInfo]
    · simp [Vfs.setInfo, hj]
  | none =>
    simp only [hc] at hs
    split_ifs at hs with hv
    obtain rfl := Except.ok.inj hs
    refine Or.inr ⟨rfl, ⟨hclosed, rfl, ?_, fun hj => ?_⟩, ⟨by simpa using hv, rfl, rfl⟩, rfl⟩
    · simp [Vfs.setInfo]
    · simp [Vfs.setInfo, Vfs.createPvd, hj]

lemma rawOpen_creates {bdev : DevId} (hs : s.rawOpen bdev i v = .ok s') :
    Opens i v s s' ∧ Creates v .blkd bdev s s' ∧ s'.inoPvdCache = s.inoPvdCache := by
  simp only [Vfs.rawOpen] at hs
  split_ifs at hs with hno
  rw [not_or, Bool.not_eq_true, Bool.not_eq_true] at hno
  obtain rfl := Except.ok.inj hs
  refine ⟨⟨hno.1, rfl, ?_, fun hj => ?_⟩, ⟨hno.2, rfl, rfl⟩, rfl⟩
  · simp [Vfs.setInfo]
  · simp [Vfs.setInfo, Vfs.createPvd, hj]

lemma pvd_permaVmaOpen (t : State C) (vma : VmaId) (x : PveId) (j : InfoId) :
    ((t.permaVmaOpen vma x).infos j).pvd = (t.infos j).pvd := by
  simp only [permaVmaOpen]
  split
  · rfl
  · by_cases hj : j = (t.vmas vma).info
    · simp [hj]
    · simp [hj]

lemma pvds_permaVmaOpen (t : State C) (vma : VmaId) (x : PveId) :
    (t.permaVmaOpen vma x).pvds = t.pvds := by
  simp only [permaVmaOpen]
  split <;> rfl

lemma dmapMmap_maps {vma : VmaId} {a : VmArea} {x : PveId} (hs : s.dmapMmap vma a x = .ok s') :
    ∃ v, Maps a.info v s s' := by
  simp only [Vfs.dmapMmap] at hs
  split_ifs at hs with hno
  rw [not_or, Bool.not_eq_false] at hno
  cases hp : (s.st.infos a.info).pvd with
  | none => simp [hp] at hs
  | some v =>
    rw [hp] at hs
    obtain rfl := Except.ok.inj hs
    refine ⟨v, hno.2, hp, rfl, rfl, rfl, fun j => ?_, ?_⟩
    · rw [pvd_permaVmaOpen]
      cases (s.st.pvds v).type <;> rfl
    · rw [pvds_permaVmaOpen]
      cases ht : (s.st.pvds v).type with
      | file => simp [modifyPvd]
      | blkd => simp

/-- A call on the buffer leaves the descriptors alone. -/
lemma Ok.sameOpens (h : s.Ok e) (op : Op C) {st : State C} (hi : s.st.issued e op = true)
    (hs : s.st.exec e op = .ok st) : SameOpens s { s with st := st } := by
  have ho := h.quiet.outside_of_exec op hi hs
  exact ⟨rfl, rfl, rfl, fun j => congrArg (fun o => (o.infos j).pvd) ho, congrArg Outside.pvds ho⟩

lemma Ok.sameOpens_buffer (h : s.Ok e) {op : Op C} (hs : s.call e (.buffer op) = .ok s') :
    SameOpens s s' := by
  obtain ⟨hr, st, hx, rfl⟩ := exec_of_buffer hs
  refine h.sameOpens op ?_ hx
  cases op with
  | mkwrite vma i =>
    exact h.tracks.cachedMapping h.quiet.inv rfl rfl (vmaPvd_of_mkwrite hx) i
  | rawRelease v => exact absurd hr Bool.false_ne_true
  | _ => rfl

lemma Ok.sameOpens_fsync (h : s.Ok e) (hs : s.fsync e i = .ok s') : SameOpens s s' := by
  rcases fsync_cases hs with rfl | ⟨v, st, -, hw, rfl⟩
  · exact ⟨rfl, rfl, rfl, fun _ => rfl, rfl⟩
  · exact h.sameOpens (.writeDirty .fsync v) rfl hw

lemma Ok.release_closes (h : s.Ok e) (hs : s.release e i = .ok s') : Closes i s s' := by
  simp only [Vfs.release] at hs
  split_ifs at hs with hno
  rw [not_or, Bool.not_eq_false] at hno
  have hopen := hno.1
  cases hv : (s.st.infos i).pvd with
  | none =>
    obtain rfl := Except.ok.inj (by simpa only [hv] using hs)
    exact ⟨hopen, rfl, rfl, rfl, fun _ => rfl, rfl⟩
  | some v =>
    simp only [hv] at hs
    cases ht : (s.st.pvds v).type with
    | blkd =>
      simp only [ht] at hs
      obtain ⟨st, hw, rfl⟩ := Except.map_eq_ok.mp hs
      have hsame := h.sameOpens (.rawRelease v) rfl hw
      exact ⟨hopen, rfl, rfl, rfl, fun _ => hsame.info _, hsame.pvds⟩
    | file =>
      simp only [ht, Vfs.wrapfsFileRelease] at hs
      split_ifs at hs
      · obtain ⟨st, hw, rfl⟩ := Except.map_eq_ok.mp hs
        have hsame := h.sameOpens (.writeDirty .release v) rfl hw
        refine ⟨hopen, rfl, rfl, rfl, fun hj => ?_, hsame.pvds⟩
        exact (congrArg FastmapInfo.pvd (Function.update_of_ne hj _ _)).trans (hsame.info _)
      · obtain rfl := Except.ok.inj hs
        exact ⟨hopen, rfl, rfl, rfl, fun _ => rfl, rfl⟩

/-- What holds between calls, and that a pvd is found under the number of its own file. -/
structure Filed (e : Env C) (s : Vfs C) : Prop where
  ok : s.Ok e
  bk {ino : DevId} {v : PvdId} : s.inoPvdCache ino = some v → (s.st.pvds v).bk = ino

lemma filed_init (e : Env C) (w : World C) : (init e w).Filed e :=
  ⟨ok_init e w, fun h => by simp [init] at h⟩

/-- A pvd that is not in use is in no entry of the cache. -/
lemma Ok.cache_ne (h : s.Ok e) (hv : s.pvdInUse v = false) : s.inoPvdCache ino ≠ some v :=
  fun hc => Bool.false_ne_true (hv.symm.trans (h.cache_pvd hc).1)

lemma Maps.bk_eq {w : PvdId} (h : Maps i v s s') : (s'.st.pvds w).bk = (s.st.pvds w).bk := by
  rw [h.pvds]
  split_ifs
  · by_cases hw : w = v
    · rw [hw, Function.update_self]
    · rw [Function.update_of_ne hw]
  · rfl

lemma Maps.type_eq {w : PvdId} (h : Maps i v s s') : (s'.st.pvds w).type = (s.st.pvds w).type := by
  rw [h.pvds]
  split_ifs
  · by_cases hw : w = v
    · rw [hw, Function.update_self]
    · rw [Function.update_of_ne hw]
  · rfl

lemma Filed.step (h : s.Filed e) {c : Call C} (hs : Steps e s c s') : s'.Filed e := by
  refine ⟨h.ok.step hs, fun {ino w} hc => ?_⟩
  obtain ⟨-, -, hcall⟩ := hs
  cases c with
  | wrapfsOpen ino' i v =>
    rcases wrapfsOpen_cases hcall with ⟨-, -, -, hcache, -, hpvds⟩ | ⟨-, -, hnew, hcache⟩
    · rw [hpvds]
      rw [hcache] at hc
      exact h.bk hc
    · rw [hcache] at hc
      rw [hnew.pvds]
      by_cases hi : ino = ino'
      · rw [hi, Function.update_self] at hc
        obtain rfl := Option.some.inj hc
        rw [Function.update_self, hi]
      · rw [Function.update_of_ne hi] at hc
        rw [Function.update_of_ne fun hw => h.ok.cache_ne hnew.unused (hw ▸ hc)]
        exact h.bk hc
  | rawOpen bdev i v =>
    obtain ⟨-, hnew, hcache⟩ := rawOpen_creates hcall
    rw [hcache] at hc
    rw [hnew.pvds, Function.update_of_ne fun hw => h.ok.cache_ne hnew.unused (hw ▸ hc)]
    exact h.bk hc
  | mmap vma a x =>
    obtain ⟨v, hm⟩ := dmapMmap_maps hcall
    rw [hm.cache] at hc
    exact hm.bk_eq.trans (h.bk hc)
  | fsync i =>
    have hsame := h.ok.sameOpens_fsync hcall
    rw [hsame.cache] at hc
    rw [hsame.pvds]
    exact h.bk hc
  | release i =>
    have hclose := h.ok.release_closes hcall
    rw [hclose.cache] at hc
    rw [hclose.pvds]
    exact h.bk hc
  | buffer op =>
    have hsame := h.ok.sameOpens_buffer hcall
    rw [hsame.cache] at hc
    rw [hsame.pvds]
    exact h.bk hc

/-! ### The table of a file -/

/-- The descriptor is open on the file. -/
def has (s : Vfs C) (ino : DevId) (i : InfoId) : Bool :=
  s.isOpen i && (s.inoPvdCache ino).isSome && decide ((s.st.infos i).pvd = s.inoPvdCache ino)

lemma has_iff : s.has ino i = true ↔
    s.isOpen i = true ∧ ∃ v, s.inoPvdCache ino = some v ∧ (s.st.infos i).pvd = some v := by
  cases hc : s.inoPvdCache ino <;> simp [has, hc]

/-- The calls on the table of a file that a call on descriptors makes. The lower file of a
descriptor goes by the number of the descriptor. -/
def tableCalls (s : Vfs C) (ino : DevId) : Call C → List FileCall
  | .wrapfsOpen ino' i _ => if ino' = ino then [.wrapfsOpen (some i)] else []
  | .mmap _ a _ => if s.has ino a.info then [.dmapMmapFile a.info true] else []
  | .release i => if s.has ino i then [.wrapfsFileRelease i] else []
  | _ => []

/-- The table is that of the file: its pvd is the one in the cache, and its lower files are those
of the descriptors that are open on the file. -/
structure ShowsTable (s : Vfs C) (ino : DevId) (t : OpenFiles) : Prop where
  data : t.pvd.map FilePvd.data = (s.inoPvdCache ino).map s.st.pvds
  lower {i : InfoId} : i ∈ t.lower ↔ s.has ino i = true
  nodup : t.lower.Nodup

variable {t : OpenFiles}

/-- What else is opened, closed or changed is not seen in the table. -/
lemma ShowsTable.of_same (h : s.ShowsTable ino t) (hc : s'.inoPvdCache ino = s.inoPvdCache ino)
    (hv : ∀ v, s.inoPvdCache ino = some v → s'.st.pvds v = s.st.pvds v)
    (hi : ∀ i, s'.has ino i = s.has ino i) : s'.ShowsTable ino t where
  data := by
    rw [h.data, hc]
    cases hv' : s.inoPvdCache ino with
    | none => rfl
    | some v => rw [Option.map_some, Option.map_some, hv v hv']
  lower {i} := by rw [h.lower, hi]
  nodup := h.nodup

/-- A descriptor is opened on something else. -/
lemma Opens.has_eq (h : Opens i v s s') (hc : s'.inoPvdCache ino = s.inoPvdCache ino)
    (hne : s.inoPvdCache ino ≠ some v) (j : InfoId) : s'.has ino j = s.has ino j := by
  by_cases hj : j = i
  · have hold : s.has ino i = false := by simp [has, h.closed]
    have hnew : ¬ s'.has ino i = true := by
      rw [has_iff, hc]
      rintro ⟨-, w, hw, hi⟩
      obtain rfl := Option.some.inj (h.info.symm.trans hi)
      exact hne hw
    rw [hj, hold]
    simpa using hnew
  · simp only [has, hc, h.isOpen, h.other hj, Function.update_of_ne hj]

/-- A descriptor is opened on the file. -/
lemma Opens.has_iff (h : Opens i v s s') (hc : s'.inoPvdCache ino = some v)
    (hold : ∀ w, s.inoPvdCache ino = some w → w = v)
    (hnone : s.inoPvdCache ino = none → ∀ j, s.isOpen j = true → (s.st.infos j).pvd ≠ some v) :
    s'.has ino j = true ↔ j = i ∨ s.has ino j = true := by
  by_cases hj : j = i
  · simp [hj, has, hc, h.isOpen, h.info]
  · rw [Vfs.has_iff, Vfs.has_iff, h.isOpen, Function.update_of_ne hj, h.other hj, hc]
    simp only [hj, false_or, Option.some.injEq, exists_eq_left']
    refine and_congr_right fun hopen => ⟨fun hp => ?_, ?_⟩
    · cases hw : s.inoPvdCache ino with
      | none => exact absurd hp (hnone hw j hopen)
      | some w =>
        obtain rfl := hold w hw
        exact ⟨w, rfl, hp⟩
    · rintro ⟨w, hw, hp⟩
      rwa [hold w hw] at hp

lemma run_calls {c : FileCall} {t' : OpenFiles} (hc : OpenFiles.Calls ino t c t') :
    Run (OpenFiles.Calls ino) t [c] t' := .snoc .nil hc

/-- An open of the file is one of the table. -/
lemma ShowsTable.wrapfsOpen (h : s.ShowsTable ino t) (hs : s.Filed e)
    (hcall : s.wrapfsOpen ino i v = .ok s') :
    ∃ t', OpenFiles.Calls ino t (.wrapfsOpen (some i)) t' ∧ s'.ShowsTable ino t' := by
  have hnew : i ∉ t.lower := by
    rw [h.lower, has_iff]
    rintro ⟨hi, -⟩
    rcases wrapfsOpen_cases hcall with ⟨w, -, ho, -⟩ | ⟨-, ho, -⟩ <;>
      exact Bool.false_ne_true (ho.closed.symm.trans hi)
  have hdata := h.data
  rcases wrapfsOpen_cases hcall with ⟨w, hw, ho, hc, -, hpvds⟩ | ⟨hnone, ho, hcreate, hc⟩
  · cases hp : t.pvd with
    | none => simp [hp, hw] at hdata
    | some d =>
      refine ⟨⟨some { d with openFds := putFirst none (some i) d.openFds, filp := some i },
        i :: t.lower⟩, ?_, ?_, fun {j} => ?_, List.nodup_cons.mpr ⟨hnew, h.nodup⟩⟩
      · simp [OpenFiles.Calls, OpenFiles.call, OpenFiles.wrapfsOpen, hnew, hp]
      · rw [hc, hpvds, ← h.data, hp]
        rfl
      · rw [List.mem_cons, h.lower, ho.has_iff (hc ▸ hw) (fun w' hw' => ?_) fun hn => ?_]
        · exact Option.some.inj (hw'.symm.trans hw)
        · simp [hn] at hw
  · cases hp : t.pvd with
    | some d => simp [hp, hnone] at hdata
    | none =>
      have hcv : s'.inoPvdCache ino = some v := by rw [hc, Function.update_self]
      refine ⟨⟨some (OpenFiles.createAndAddFilePvd ino i), i :: t.lower⟩, ?_, ?_, fun {j} => ?_,
        List.nodup_cons.mpr ⟨hnew, h.nodup⟩⟩
      · simp [OpenFiles.Calls, OpenFiles.call, OpenFiles.wrapfsOpen, hnew, hp]
      · simp only [hcv, Option.map_some, hcreate.pvds, Function.update_self,
          OpenFiles.createAndAddFilePvd]
      · rw [List.mem_cons, h.lower, ho.has_iff hcv (fun w' hw' => ?_) fun _ j hj hv => ?_]
        · simp [hnone] at hw'
        · exact Bool.false_ne_true (hcreate.unused.symm.trans (hs.ok.info_pvd hj hv))

/-- An open of another file, or of a device, is none of the table. -/
lemma ShowsTable.of_opens (h : s.ShowsTable ino t) (ho : Opens i v s s')
    (hc : s'.inoPvdCache ino = s.inoPvdCache ino) (hne : s.inoPvdCache ino ≠ some v)
    (hv : ∀ w, w ≠ v → s'.st.pvds w = s.st.pvds w) : s'.ShowsTable ino t :=
  h.of_same hc (fun w hw => hv w fun hwv => hne (hwv ▸ hw)) (ho.has_eq hc hne)

lemma ShowsTable.of_sameOpens (h : s.ShowsTable ino t) (hs : SameOpens s s') :
    s'.ShowsTable ino t :=
  h.of_same (congrFun hs.cache ino) (fun v _ => congrFun hs.pvds v) fun i => by
    simp only [has, hs.cache, hs.isOpen, hs.info]

/-- Each call on descriptors is matched by its calls on the table. -/
lemma ShowsTable.step (h : s.ShowsTable ino t) (hf : s.Filed e) {c : Call C}
    (hs : Steps e s c s') :
    ∃ t', Run (OpenFiles.Calls ino) t (s.tableCalls ino c) t' ∧ s'.ShowsTable ino t' := by
  obtain ⟨-, -, hcall⟩ := hs
  cases c with
  | wrapfsOpen ino' i v =>
    by_cases hi : ino' = ino
    · subst hi
      obtain ⟨t', ht, hshow⟩ := h.wrapfsOpen hf hcall
      exact ⟨t', by simpa [tableCalls] using run_calls ht, hshow⟩
    · refine ⟨t, by simpa [tableCalls, hi] using Run.nil, ?_⟩
      rcases wrapfsOpen_cases hcall with ⟨w, hw, ho, hc, -, hpvds⟩ | ⟨-, ho, hcreate, hc⟩
      · refine h.of_opens ho (congrFun hc ino) (fun hw' => hi ?_) fun u _ => congrFun hpvds u
        exact (hf.bk hw).symm.trans (hf.bk hw')
      · refine h.of_opens ho ?_ (hf.ok.cache_ne hcreate.unused) fun u hu => ?_
        · rw [hc, Function.update_of_ne (Ne.symm hi)]
        · rw [hcreate.pvds, Function.update_of_ne hu]
  | rawOpen bdev i v =>
    obtain ⟨ho, hcreate, hc⟩ := rawOpen_creates hcall
    refine ⟨t, .nil, h.of_opens ho (congrFun hc ino) (hf.ok.cache_ne hcreate.unused) ?_⟩
    intro u hu
    rw [hcreate.pvds, Function.update_of_ne hu]
  | mmap vma a x =>
    obtain ⟨v, hm⟩ := dmapMmap_maps hcall
    have hhas : ∀ j, s'.has ino j = s.has ino j := fun j => by
      simp only [has, hm.cache, hm.isOpen, hm.infos]
    by_cases hi : s.has ino a.info = true
    · obtain ⟨-, w, hw, hiv⟩ := has_iff.mp hi
      obtain rfl := Option.some.inj (hm.info.symm.trans hiv)
      have hfile := (hf.ok.cache_pvd hw).2
      have hdata := h.data
      cases hp : t.pvd with
      | none => simp [hp, hw] at hdata
      | some d =>
        have hd : d.data = s.st.pvds v := by simpa [hp, hw] using hdata
        let d' := { d with data := { d.data with mmaped := true, isMmap := true } }
        refine ⟨{ t with pvd := some d' }, ?_, ?_, fun {j} => ?_, h.nodup⟩
        · rw [tableCalls, if_pos hi]
          apply run_calls
          simp [OpenFiles.Calls, OpenFiles.call, OpenFiles.dmapMmapFile, h.lower.mpr hi, hp, d']
        · simp only [hm.cache, hw, Option.map_some, hm.pvds, if_pos hfile, Function.update_self, d', hd]
        · rw [hhas]
          exact h.lower
    · refine ⟨t, by simpa [tableCalls, hi] using Run.nil,
        h.of_same (congrFun hm.cache ino) ?_ hhas⟩
      intro u hu
      have huv : u ≠ v := by
        rintro rfl
        exact hi (has_iff.mpr ⟨hm.opened, u, hu, hm.info⟩)
      rw [hm.pvds]
      split_ifs
      · rw [Function.update_of_ne huv]
      · rfl
  | release i =>
    have hclose := hf.ok.release_closes hcall
    have hother : ∀ {j}, j ≠ i → s'.has ino j = s.has ino j := fun hj => by
      simp only [has, hclose.cache, hclose.isOpen, Function.update_of_ne hj, hclose.other hj]
    have hself : s'.has ino i = false := by simp [has, hclose.isOpen]
    by_cases hi : s.has ino i = true
    · refine ⟨⟨t.pvd.map fun d => OpenFiles.releasePvd t.lower d i, t.lower.erase i⟩, ?_, ?_,
        fun {j} => ?_, h.nodup.erase i⟩
      · rw [tableCalls, if_pos hi]
        apply run_calls
        simp [OpenFiles.Calls, OpenFiles.call, OpenFiles.wrapfsFileRelease, h.lower.mpr hi]
      · rw [hclose.cache, hclose.pvds, ← h.data, Option.map_map]
        congr 1
        funext d
        simp only [Function.comp_apply, OpenFiles.releasePvd]
        split_ifs <;> rfl
      · rw [h.nodup.mem_erase_iff, h.lower]
        by_cases hj : j = i
        · simp [hj, hself]
        · simp [hj, hother hj]
    · refine ⟨t, by simpa [tableCalls, hi] using Run.nil,
        h.of_same (congrFun hclose.cache ino) ?_ ?_⟩
      · exact fun u _ => congrFun hclose.pvds u
      · intro j
        by_cases hj : j = i
        · rw [hj, hself]
          simpa using hi
        · exact hother hj
  | fsync i => exact ⟨t, .nil, h.of_sameOpens (hf.ok.sameOpens_fsync hcall)⟩
  | buffer op => exact ⟨t, .nil, h.of_sameOpens (hf.ok.sameOpens_buffer hcall)⟩

/-- In every run of calls on descriptors, each file has a table of lower files whose calls are those
of the run that are on the file. -/
theorem exists_table {w : World C} {cs : List (Call C)} (hr : Run (Steps e) (init e w) cs s)
    (ino : DevId) : ∃ calls t, Run (OpenFiles.Calls ino) OpenFiles.init calls t ∧
      s.ShowsTable ino t := by
  have hstep : ∀ s c s' t, s.Filed e ∧ s.ShowsTable ino t → Steps e s c s' →
      ∃ calls t', Run (OpenFiles.Calls ino) t calls t' ∧ s'.Filed e ∧ s'.ShowsTable ino t' := by
    rintro s c s' t ⟨hf, hshow⟩ hs
    obtain ⟨t', ht', hshow'⟩ := hshow.step hf hs
    exact ⟨_, t', ht', hf.step hs, hshow'⟩
  have hinit : (init e w).ShowsTable ino OpenFiles.init := by
    refine ⟨rfl, fun {i} => ?_, List.nodup_nil⟩
    simp [OpenFiles.init, has, init]
  obtain ⟨calls, t, ht, -, hshow⟩ := hr.matched hstep ⟨filed_init e w, hinit⟩
  exact ⟨calls, t, ht, hshow⟩

/-! ### The steps of the cache -/

/-- The lower inode with a number; all files are on one lower device. -/
def lowerInode (ino : DevId) : LowerInode := ⟨0, ino⟩

/-- The cache is the one that is found step by step, and its files are the descriptors of regular
files. No open is under way. -/
structure ShowsCache (s : Vfs C) (c : InoCache) : Prop where
  cache : c.cache = s.inoPvdCache
  linked (l : LowerInode) : c.linked l = true
  allocated {v : PvdId} : c.allocated v = true → s.pvdInUse v = true
  key {v : PvdId} : c.allocated v = true → (c.key v).ino = (s.st.pvds v).bk
  opened {i : InfoId} {v : PvdId} : s.isOpen i = true → (s.st.infos i).pvd = some v →
    (s.st.pvds v).type = .file → c.file i = .opened (lowerInode (s.st.pvds v).bk) v
  closed {i : InfoId} : (∀ v, s.isOpen i = true → (s.st.infos i).pvd = some v →
    (s.st.pvds v).type ≠ .file) → c.file i = .closed

variable {c c' : InoCache}

lemma run_exec {a : InoStep} (h : c.exec a = some c') : Run InoCache.Steps c [a] c' :=
  .snoc .nil (.exec h)

/-- The steps of the cache that a call on descriptors makes, when nothing else is under way. -/
def cacheSteps (s : Vfs C) : Call C → List InoStep
  | .wrapfsOpen ino i v =>
    match s.inoPvdCache ino with
    | some _ => [.wrapfsOpen i (lowerInode ino), .radixLookup i]
    | none => [.wrapfsOpen i (lowerInode ino), .radixLookup i, .createAndAddFilePvd i v,
        .radixInsert i]
  | .release i =>
    match (s.st.infos i).pvd with
    | some v => if (s.st.pvds v).type = .file then [.release i] else []
    | none => []
  | _ => []

lemma ShowsCache.of_sameOpens (h : s.ShowsCache c) (hs : SameOpens s s') : s'.ShowsCache c where
  cache := h.cache.trans hs.cache.symm
  linked := h.linked
  allocated hv := hs.inUse ▸ h.allocated hv
  key hv := by rw [h.key hv, hs.pvds]
  opened {i v} hi hv ht := by
    rw [hs.isOpen] at hi
    rw [hs.info] at hv
    rw [hs.pvds] at ht ⊢
    exact h.opened hi hv ht
  closed {i} hn := h.closed fun v hi hv => by
    rw [← hs.pvds]
    exact hn v (hs.isOpen ▸ hi) ((hs.info i).trans hv)

/-- A mapping changes only the flags of a pvd. -/
lemma ShowsCache.of_maps (h : s.ShowsCache c) (hm : Maps i v s s') : s'.ShowsCache c where
  cache := h.cache.trans hm.cache.symm
  linked := h.linked
  allocated hv := hm.inUse ▸ h.allocated hv
  key hv := by rw [h.key hv, hm.bk_eq]
  opened {j w} hj hw ht := by
    rw [hm.isOpen] at hj
    rw [hm.infos] at hw
    rw [hm.type_eq] at ht
    rw [hm.bk_eq]
    exact h.opened hj hw ht
  closed {j} hn := h.closed fun w hj hw => by
    rw [← hm.type_eq]
    exact hn w (hm.isOpen ▸ hj) ((hm.infos j).trans hw)

/-- The file of a closed descriptor is closed. -/
lemma ShowsCache.file_closed (h : s.ShowsCache c) (hi : s.isOpen i = false) : c.file i = .closed :=
  h.closed fun _ hopen => absurd (hi.symm.trans hopen) Bool.false_ne_true

/-- An open that finds the pvd of the file. -/
lemma ShowsCache.open_found (h : s.ShowsCache c) (hf : s.Filed e) {w : PvdId}
    (hw : s.inoPvdCache ino = some w) (ho : Opens i w s s')
    (hc : s'.inoPvdCache = s.inoPvdCache) (hu : s'.pvdInUse = s.pvdInUse)
    (hpvds : s'.st.pvds = s.st.pvds) :
    Run InoCache.Steps c [.wrapfsOpen i (lowerInode ino), .radixLookup i]
      (c.setFile i (.opened (lowerInode ino) w)) ∧
    s'.ShowsCache (c.setFile i (.opened (lowerInode ino) w)) := by
  have hclosed := h.file_closed ho.closed
  have hlook : c.cache (lowerInode ino).ino = some w := by
    rw [h.cache]
    exact hw
  constructor
  · have hopen : c.exec (.wrapfsOpen i (lowerInode ino)) =
        some (c.setFile i (.lookup (lowerInode ino))) := by
      simp [InoCache.exec, hclosed, h.linked]
    refine (run_exec hopen).snoc (.exec ?_)
    simp [InoCache.exec, InoCache.radixLookup, InoCache.setFile, hlook]
  · refine ⟨h.cache.trans hc.symm, h.linked, fun hv => hu ▸ h.allocated hv, fun hv => ?_, ?_, ?_⟩
    · rw [hpvds]
      exact h.key hv
    · intro j v hj hv ht
      by_cases hji : j = i
      · rw [hji] at hv ⊢
        obtain rfl := Option.some.inj (ho.info.symm.trans hv)
        rw [InoCache.setFile_self, hpvds, hf.bk hw]
      · rw [ho.isOpen, Function.update_of_ne hji] at hj
        rw [ho.other hji] at hv
        rw [hpvds] at ht ⊢
        rw [InoCache.setFile_of_ne _ _ hji]
        exact h.opened hj hv ht
    · intro j hn
      by_cases hji : j = i
      · rw [hji, ho.isOpen] at hn
        refine absurd ?_ (hn w (Function.update_self _ _ _) ho.info)
        rw [hpvds]
        exact (hf.ok.cache_pvd hw).2
      · rw [InoCache.setFile_of_ne _ _ hji]
        refine h.closed fun v hj hv => ?_
        rw [← hpvds]
        refine hn v ?_ ((ho.other hji).trans hv)
        rw [ho.isOpen, Function.update_of_ne hji]
        exact hj

/-- The new pvd is nobody's, so nothing else changes. -/
lemma Creates.pvds_of_inUse {t : PvdType} {bk : DevId} (h : Creates v t bk s s') {w : PvdId}
    (hw : s.pvdInUse w = true) : s'.st.pvds w = s.st.pvds w := by
  have hne : w ≠ v := by
    rintro rfl
    exact Bool.false_ne_true (h.unused.symm.trans hw)
  rw [h.pvds, Function.update_of_ne hne]

lemma Creates.inUse_of_inUse {t : PvdType} {bk : DevId} (h : Creates v t bk s s') {w : PvdId}
    (hw : s.pvdInUse w = true) : s'.pvdInUse w = true := by
  rw [h.inUse]
  by_cases hwv : w = v
  · rw [hwv, Function.update_self]
  · rwa [Function.update_of_ne hwv]

/-- An open that makes a pvd and puts it into the cache. -/
lemma ShowsCache.open_new (h : s.ShowsCache c) (hf : s.Filed e) (hnone : s.inoPvdCache ino = none)
    (ho : Opens i v s s') (hcreate : Creates v .file ino s s')
    (hc : s'.inoPvdCache = Function.update s.inoPvdCache ino (some v)) :
    ∃ c', Run InoCache.Steps c [.wrapfsOpen i (lowerInode ino), .radixLookup i,
      .createAndAddFilePvd i v, .radixInsert i] c' ∧ s'.ShowsCache c' := by
  have hclosed := h.file_closed ho.closed
  have hfree : ¬ c.allocated v = true := fun ha =>
    Bool.false_ne_true (hcreate.unused.symm.trans (h.allocated ha))
  have hlook : c.cache (lowerInode ino).ino = none := by
    rw [h.cache]
    exact hnone
  let c₁ := c.setFile i (.lookup (lowerInode ino))
  let c₂ := c₁.setFile i (.create (lowerInode ino))
  let c₃ := ({ c₂ with
    allocated := Function.update c₂.allocated v true
    key := Function.update c₂.key v ⟨0, ino⟩ } : InoCache).setFile i (.insert (lowerInode ino) v)
  let c₄ := { c₃.setFile i (.opened (lowerInode ino) v) with
    cache := Function.update c.cache ino (some v) }
  have h₁ : c.exec (.wrapfsOpen i (lowerInode ino)) = some c₁ := by
    simp [InoCache.exec, hclosed, h.linked, c₁]
  have h₂ : c₁.exec (.radixLookup i) = some c₂ := by
    simp [InoCache.exec, InoCache.radixLookup, InoCache.setFile, hlook, c₁, c₂]
  have h₃ : c₂.exec (.createAndAddFilePvd i v) = some c₃ := by
    simp [InoCache.exec, InoCache.createAndAddFilePvd, InoCache.setFile, hfree, c₁, c₂, c₃,
      lowerInode]
  have h₄ : c₃.exec (.radixInsert i) = some c₄ := by
    simp only [InoCache.exec, InoCache.radixInsert, InoCache.setFile, Function.update_self, hlook,
      c₁, c₂, c₃, c₄]
    rfl
  have hrun := (((run_exec h₁).snoc (.exec h₂)).snoc (.exec h₃)).snoc (.exec h₄)
  have hfile : ∀ {j}, j ≠ i → c₄.file j = c.file j := fun hj => by
    simp [c₁, c₂, c₃, c₄, InoCache.setFile, hj]
  refine ⟨c₄, hrun, ?_, h.linked, fun {w} hw => ?_, fun {w} hw => ?_, ?_, ?_⟩
  · rw [hc, ← h.cache]
  · by_cases hwv : w = v
    · rw [hwv, hcreate.inUse, Function.update_self]
    · have hold : c.allocated w = true := (Function.update_of_ne hwv _ _).symm.trans hw
      exact hcreate.inUse_of_inUse (h.allocated hold)
  · by_cases hwv : w = v
    · rw [hwv, hcreate.pvds, Function.update_self]
      simp [c₃, c₄, InoCache.setFile]
    · have hold : c.allocated w = true := (Function.update_of_ne hwv _ _).symm.trans hw
      rw [hcreate.pvds, Function.update_of_ne hwv, ← h.key hold]
      exact congrArg PvdKey.ino (Function.update_of_ne hwv _ _)
  · intro j w hj hw ht
    by_cases hji : j = i
    · rw [hji] at hw ⊢
      obtain rfl := Option.some.inj (ho.info.symm.trans hw)
      rw [hcreate.pvds, Function.update_self]
      exact InoCache.setFile_self _ _ _
    · rw [ho.isOpen, Function.update_of_ne hji] at hj
      rw [ho.other hji] at hw
      rw [hcreate.pvds_of_inUse (hf.ok.info_pvd hj hw)] at ht ⊢
      rw [hfile hji]
      exact h.opened hj hw ht
  · intro j hn
    by_cases hji : j = i
    · rw [hji, ho.isOpen] at hn
      refine absurd ?_ (hn v (Function.update_self _ _ _) ho.info)
      rw [hcreate.pvds, Function.update_self]
    · rw [hfile hji]
      refine h.closed fun w hj hw => ?_
      rw [← hcreate.pvds_of_inUse (hf.ok.info_pvd hj hw)]
      refine hn w ?_ ((ho.other hji).trans hw)
      rw [ho.isOpen, Function.update_of_ne hji]
      exact hj

/-- The open of a device is no step of the cache. -/
lemma ShowsCache.of_rawOpen (h : s.ShowsCache c) (hf : s.Filed e) {bdev : DevId}
    (ho : Opens i v s s') (hcreate : Creates v .blkd bdev s s')
    (hc : s'.inoPvdCache = s.inoPvdCache) : s'.ShowsCache c := by
  refine ⟨h.cache.trans hc.symm, h.linked, fun hv => hcreate.inUse_of_inUse (h.allocated hv),
    fun hv => ?_, ?_, ?_⟩
  · rw [hcreate.pvds_of_inUse (h.allocated hv)]
    exact h.key hv
  · intro j w hj hw ht
    by_cases hji : j = i
    · rw [hji] at hw
      obtain rfl := Option.some.inj (ho.info.symm.trans hw)
      rw [hcreate.pvds, Function.update_self] at ht
      cases ht
    · rw [ho.isOpen, Function.update_of_ne hji] at hj
      rw [ho.other hji] at hw
      rw [hcreate.pvds_of_inUse (hf.ok.info_pvd hj hw)] at ht ⊢
      exact h.opened hj hw ht
  · intro j hn
    by_cases hji : j = i
    · rw [hji]
      exact h.file_closed ho.closed
    · refine h.closed fun w hj hw => ?_
      rw [← hcreate.pvds_of_inUse (hf.ok.info_pvd hj hw)]
      refine hn w ?_ ((ho.other hji).trans hw)
      rw [ho.isOpen, Function.update_of_ne hji]
      exact hj

/-- After the release of a descriptor its file is closed. -/
lemma ShowsCache.of_closes (h : s.ShowsCache c) (hs : Closes i s s') :
    s'.ShowsCache (c.setFile i .closed) := by
  refine ⟨h.cache.trans hs.cache.symm, h.linked, fun hv => hs.inUse ▸ h.allocated hv, fun hv => ?_,
    ?_, ?_⟩
  · rw [hs.pvds]
    exact h.key hv
  · intro j v hj hv ht
    have hji : j ≠ i := by
      rintro rfl
      simp [hs.isOpen] at hj
    rw [hs.isOpen, Function.update_of_ne hji] at hj
    rw [hs.other hji] at hv
    rw [hs.pvds] at ht ⊢
    rw [InoCache.setFile_of_ne _ _ hji]
    exact h.opened hj hv ht
  · intro j hn
    by_cases hji : j = i
    · rw [hji]
      exact InoCache.setFile_self _ _ _
    · rw [InoCache.setFile_of_ne _ _ hji]
      refine h.closed fun v hj hv => ?_
      rw [← hs.pvds]
      refine hn v ?_ ((hs.other hji).trans hv)
      rw [hs.isOpen, Function.update_of_ne hji]
      exact hj

lemma setFile_of_file {f : WrapfsFile} (hf : c.file i = f) : c.setFile i f = c := by
  simp only [InoCache.setFile, ← hf, Function.update_eq_self]

/-- Each call on descriptors is matched by its steps of the cache. -/
lemma ShowsCache.step (h : s.ShowsCache c) (hf : s.Filed e) {k : Call C} (hs : Steps e s k s') :
    ∃ c', Run InoCache.Steps c (s.cacheSteps k) c' ∧ s'.ShowsCache c' := by
  obtain ⟨-, -, hcall⟩ := hs
  cases k with
  | wrapfsOpen ino i v =>
    rcases wrapfsOpen_cases hcall with ⟨w, hw, ho, hc, hu, hpvds⟩ | ⟨hnone, ho, hcreate, hc⟩
    · obtain ⟨hrun, hshow⟩ := h.open_found hf hw ho hc hu hpvds
      exact ⟨_, by simpa only [cacheSteps, hw] using hrun, hshow⟩
    · obtain ⟨c', hrun, hshow⟩ := h.open_new hf hnone ho hcreate hc
      exact ⟨c', by simpa only [cacheSteps, hnone] using hrun, hshow⟩
  | rawOpen bdev i v =>
    obtain ⟨ho, hcreate, hc⟩ := rawOpen_creates hcall
    exact ⟨c, .nil, h.of_rawOpen hf ho hcreate hc⟩
  | mmap vma a x =>
    obtain ⟨v, hm⟩ := dmapMmap_maps hcall
    exact ⟨c, .nil, h.of_maps hm⟩
  | release i =>
    have hclose := hf.ok.release_closes hcall
    have hshow := h.of_closes hclose
    -- the file of a device, or of no pvd, was never open
    have hno : (∀ v, (s.st.infos i).pvd = some v → (s.st.pvds v).type ≠ .file) →
        s'.ShowsCache c := fun hn => by
      rwa [setFile_of_file (h.closed fun v _ hv => hn v hv)] at hshow
    cases hv : (s.st.infos i).pvd with
    | none => exact ⟨c, by simpa only [cacheSteps, hv] using Run.nil, hno (by simp [hv])⟩
    | some v =>
      by_cases ht : (s.st.pvds v).type = .file
      · refine ⟨_, ?_, hshow⟩
        simp only [cacheSteps, hv, if_pos ht]
        exact run_exec (by simp [InoCache.exec, h.opened hclose.opened hv ht])
      · refine ⟨c, by simpa only [cacheSteps, hv, if_neg ht] using Run.nil, hno fun w hw => ?_⟩
        rwa [← Option.some.inj (hv.symm.trans hw)]
  | fsync i => exact ⟨c, .nil, h.of_sameOpens (hf.ok.sameOpens_fsync hcall)⟩
  | buffer op => exact ⟨c, .nil, h.of_sameOpens (hf.ok.sameOpens_buffer hcall)⟩

/-- Every run of calls on descriptors is one of the steps of the cache in which no two opens
overlap. -/
theorem exists_cache {w : World C} {cs : List (Call C)} (hr : Run (Steps e) (init e w) cs s) :
    ∃ steps c, Run InoCache.Steps { InoCache.init with linked := fun _ => true } steps c ∧
      s.ShowsCache c := by
  have hstep : ∀ s k s' c, s.Filed e ∧ s.ShowsCache c → Steps e s k s' →
      ∃ steps c', Run InoCache.Steps c steps c' ∧ s'.Filed e ∧ s'.ShowsCache c' := by
    rintro s k s' c ⟨hf, hshow⟩ hs
    obtain ⟨c', hc', hshow'⟩ := hshow.step hf hs
    exact ⟨_, c', hc', hf.step hs, hshow'⟩
  have hinit : (init e w).ShowsCache { InoCache.init with linked := fun _ => true } := by
    refine ⟨rfl, fun _ => rfl, ?_, ?_, ?_, fun _ => rfl⟩
    · exact fun hv => absurd hv Bool.false_ne_true
    · exact fun hv => absurd hv Bool.false_ne_true
    · exact fun hi => absurd hi Bool.false_ne_true
  obtain ⟨steps, c, hc, -, hshow⟩ := hr.matched hstep ⟨filed_init e w, hinit⟩
  exact ⟨steps, c, hc, hshow⟩

end Vfs

namespace Wrapfs

/-! ### The references of the stack -/

variable {leaked : Multiset LowerInodeId} {s s' : Wrapfs} {t : OpenFiles} {f : UpperFile}
  {u : DentryId} {i : InodeId} {o : OpenEnv} {ino : DevId}

/-- What `dentry_open` answers. The lower file goes by the number of the upper one. -/
def lowerFile (o : OpenEnv) (f : UpperFile) : Option FileId :=
  if o.dentryOpen = 0 then some f else none

/-- The lower files of the table belong to files that are open. -/
def Opened (s : Wrapfs) (t : OpenFiles) : Prop := ∀ f ∈ t.lower, f ∈ s.up.files

/-- The call follows an empty pointer exactly when it does so on the table, as long as there is
memory for a pvd that is not there. -/
lemma followsNull_iff (hp : o.cached = t.pvd.isSome) (hm : t.pvd = none → o.pvdKzalloc = true)
    (hf : f ∉ t.lower) :
    o.followsNull ↔ t.wrapfsOpen ino (lowerFile o f) = .error .nullDeref := by
  have hmem : ¬ (o.cached = false ∧ o.pvdKzalloc = false) := by
    rintro ⟨hc, hk⟩
    rw [hp] at hc
    have hnone : t.pvd = none := by simpa using hc
    exact Bool.false_ne_true (hk.symm.trans (hm hnone))
  by_cases ho : o.dentryOpen = 0
  · simp only [OpenEnv.followsNull, hmem, or_false, ho, not_true_eq_false, ne_eq, lowerFile, if_true,
      OpenFiles.wrapfsOpen, if_neg hf, false_iff]
    cases t.pvd <;> simp
  · simp [OpenEnv.followsNull, lowerFile, OpenFiles.wrapfsOpen, ho]

/-- The open of a regular file goes wrong in the stack exactly when it does in the table. -/
theorem Sound.openFile_iff_table (h : s.Sound leaked) (hu : s.IsFile u) (hf : f ∉ s.up.files)
    (hh : (s.up.dentry u).hashed = true) (hk : o.kzalloc = true)
    (hi : (s.up.dentry u).inode = some i) (hr : (s.up.inode i).mode = some .reg) (ht : s.Opened t)
    (hp : o.cached = t.pvd.isSome) (hm : t.pvd = none → o.pvdKzalloc = true) :
    s.openFile f u o = .error .nullDeref ↔
      t.wrapfsOpen ino (lowerFile o f) = .error .nullDeref := by
  rw [← followsNull_iff hp hm fun hmem => hf (ht f hmem)]
  rcases h.openFile hu hf with ⟨hrefused, he⟩ | ⟨hno, err, s', he, -⟩
  · exact ⟨fun _ => hrefused.2.2.1, fun _ => he⟩
  · exact ⟨fun he' => by simp [he] at he', fun hnull => absurd ⟨hh, hk, hnull, i, hi, hr⟩ hno⟩

/-- An open that goes through is one of the table. -/
lemma Opened.openFile (ht : s.Opened t) (hf : f ∉ s.up.files)
    (hs : s.openFile f u o = .ok (0, s')) :
    ∃ t', OpenFiles.Calls ino t (.wrapfsOpen (some f)) t' ∧ s'.Opened t' := by
  have hnew : f ∉ t.lower := fun hmem => hf (ht f hmem)
  rcases of_openFile hs with ⟨hne, -⟩ | ⟨p, j, li, -, -, rfl⟩
  · exact absurd rfl hne
  · have hopened : ∀ g ∈ f :: t.lower, g ∈ insert f s.up.files := by
      intro g hg
      rcases List.mem_cons.mp hg with rfl | hg
      · exact Finset.mem_insert_self _ _
      · exact Finset.mem_insert_of_mem (ht g hg)
    cases hp : t.pvd with
    | none =>
      refine ⟨⟨some (OpenFiles.createAndAddFilePvd ino f), f :: t.lower⟩, ?_, hopened⟩
      simp [OpenFiles.Calls, OpenFiles.call, OpenFiles.wrapfsOpen, hnew, hp]
    | some d =>
      refine ⟨⟨some { d with openFds := putFirst none (some f) d.openFds, filp := some f },
        f :: t.lower⟩, ?_, hopened⟩
      simp [OpenFiles.Calls, OpenFiles.call, OpenFiles.wrapfsOpen, hnew, hp]

/-- The open of another file is not seen in the table. -/
lemma Opened.openFile_other (ht : s.Opened t) {err : ℤ} (hs : s.openFile f u o = .ok (err, s')) :
    s'.Opened t := by
  rcases of_openFile hs with ⟨-, rfl⟩ | ⟨p, j, li, -, -, rfl⟩
  · exact ht
  · exact fun g hg => Finset.mem_insert_of_mem (ht g hg)

lemma files_fileRelease (hs : s.fileRelease f = .ok s') : s'.up.files = s.up.files.erase f := by
  simp only [Wrapfs.fileRelease, putLowerPath] at hs
  obtain ⟨pins, -, hs⟩ := Except.bind_eq_ok.mp hs
  obtain rfl := Except.ok.inj hs
  rfl

/-- A release is one of the table. -/
lemma Opened.fileRelease (ht : s.Opened t) (hn : t.lower.Nodup) (hf : f ∈ t.lower)
    (hs : s.fileRelease f = .ok s') :
    ∃ t', OpenFiles.Calls ino t (.wrapfsFileRelease f) t' ∧ s'.Opened t' := by
  refine ⟨⟨t.pvd.map fun d => OpenFiles.releasePvd t.lower d f, t.lower.erase f⟩, ?_, ?_⟩
  · simp [OpenFiles.Calls, OpenFiles.call, OpenFiles.wrapfsFileRelease, hf]
  · intro g hg
    obtain ⟨hgf, hg⟩ := hn.mem_erase_iff.mp hg
    rw [files_fileRelease hs]
    exact Finset.mem_erase.mpr ⟨hgf, ht g hg⟩

/-- The release of another file is not seen in the table. -/
lemma Opened.fileRelease_other (ht : s.Opened t) (hf : f ∉ t.lower)
    (hs : s.fileRelease f = .ok s') : s'.Opened t := by
  intro g hg
  rw [files_fileRelease hs]
  exact Finset.mem_erase.mpr ⟨fun hgf => hf (hgf ▸ hg), ht g hg⟩

end Wrapfs

end FastMap
