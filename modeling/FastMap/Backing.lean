import FastMap.Files
import FastMap.Lib.Run

/-!
# The file that is written to

Every open of a regular file opens the lower file once more. The pvd remembers the open lower files
in a table of fixed size, and writes back through one of them, `bk.filp`. This module follows the
table and `bk.filp` through every sequence of opens, mappings and releases of one file.
-/

namespace FastMap

/-- A `struct file *` of the lower filesystem. -/
abbrev FileId := ℕ

def maxOpenFds : ℕ := 256

/-- The pvd of a regular file, with its table of open lower files. -/
structure FilePvd where
  data : PrVmaData
  openFds : List (Option FileId)
  filp : Option FileId

/-- The pvd, once a first open has created it, and the lower files that are open. -/
structure OpenFiles where
  pvd : Option FilePvd
  lower : List FileId

/-- The calls on the file; `dentry_open` may fail, and so may `dmap_mmap_file`. -/
inductive FileCall where
  | wrapfsOpen (lowerFile : Option FileId)
  | dmapMmapFile (lowerFile : FileId) (writepage : Bool)
  | wrapfsFileRelease (lowerFile : FileId)

/-- The loops over `open_fds` that overwrite the first entry of a given value. -/
def putFirst {α : Type*} [DecidableEq α] (old new : α) : List α → List α
  | [] => []
  | x :: l => if x = old then new :: l else x :: putFirst old new l

namespace OpenFiles

def init : OpenFiles := ⟨none, []⟩

/-- `create_and_add_file_pvd` -/
def createAndAddFilePvd (ino : DevId) (filp : FileId) : FilePvd where
  data := ⟨.file, ino, false, false, true, false⟩
  openFds := some filp :: List.replicate (maxOpenFds - 1) none
  filp := some filp

/-- `wrapfs_open`. The inode number is read through `lower_file` before `IS_ERR(lower_file)` is
looked at. -/
def wrapfsOpen (s : OpenFiles) (ino : DevId) : Option FileId → Except Halt OpenFiles
  | none => .error .nullDeref
  | some f =>
    if f ∈ s.lower then .error .notIssued
    else
      match s.pvd with
      | none => .ok ⟨some (createAndAddFilePvd ino f), f :: s.lower⟩
      | some d =>
        .ok ⟨some { d with openFds := putFirst none (some f) d.openFds, filp := some f },
          f :: s.lower⟩

/-- `dmap_mmap_file`, which fails for a lower filesystem without `writepage`. -/
def dmapMmapFile (s : OpenFiles) (f : FileId) (writepage : Bool) : Except Halt OpenFiles :=
  if f ∉ s.lower then .error .notIssued
  else
    match s.pvd with
    | none => .error .nullDeref
    | some d =>
      if writepage then
        .ok { s with pvd := some { d with data := { d.data with mmaped := true, isMmap := true } } }
      else .ok s

/-- The entry of the table that becomes `bk.filp`: the first one that has an inode. The inode of a
`struct file` is there until its last `fput`. -/
def firstLive (lower : List FileId) (fds : List (Option FileId)) : Option FileId :=
  (fds.filterMap id).find? (· ∈ lower)

/-- What `wrapfs_file_release` does to the pvd before it drops the lower file. -/
def releasePvd (lower : List FileId) (d : FilePvd) (f : FileId) : FilePvd :=
  let fds := putFirst (some f) none d.openFds
  if Vfs.releaseWrites d.data then
    let fds := fds.map fun x => x.filter (· ∈ lower)
    { d with openFds := fds, filp := (firstLive lower fds).or (some f) }
  else { d with openFds := fds }

/-- `wrapfs_file_release` -/
def wrapfsFileRelease (s : OpenFiles) (f : FileId) : Except Halt OpenFiles :=
  if f ∉ s.lower then .error .notIssued
  else .ok ⟨s.pvd.map fun d => releasePvd s.lower d f, s.lower.erase f⟩

def call (ino : DevId) (s : OpenFiles) : FileCall → Except Halt OpenFiles
  | .wrapfsOpen f => s.wrapfsOpen ino f
  | .dmapMmapFile f writepage => s.dmapMmapFile f writepage
  | .wrapfsFileRelease f => s.wrapfsFileRelease f

/-- A completed call. -/
def Calls (ino : DevId) (s : OpenFiles) (c : FileCall) (s' : OpenFiles) : Prop :=
  s.call ino c = .ok s'

/-- The file that is written to is open, if any is. -/
def Live (s : OpenFiles) : Prop :=
  s.lower ≠ [] → ∃ d f, s.pvd = some d ∧ d.filp = some f ∧ f ∈ s.lower

/-- A file that is not the last one is released while the table has another one, if the file has
been mapped, and while it is not the one that is written to, otherwise. -/
def Replaced (s : OpenFiles) : FileCall → Prop
  | .wrapfsFileRelease f => ∀ d, s.pvd = some d → s.lower ≠ [f] →
      if Vfs.releaseWrites d.data then ∃ g, g ≠ f ∧ some g ∈ d.openFds else d.filp ≠ some f
  | _ => True

/-- A call that keeps a live file to write to. -/
def StepsReplaced (ino : DevId) (s : OpenFiles) (c : FileCall) (s' : OpenFiles) : Prop :=
  s.Replaced c ∧ Calls ino s c s'

/-! ### The table -/

/-- The files of the table. -/
def files (fds : List (Option FileId)) : List FileId := fds.filterMap id

lemma mem_files {fds : List (Option FileId)} {g : FileId} : g ∈ files fds ↔ some g ∈ fds := by
  simp [files]

/-- The table has room for the file, or is full and stays as it is. -/
lemma files_put (f : FileId) (fds : List (Option FileId)) :
    (files (putFirst none (some f) fds)).Perm (f :: files fds) ∨
      files (putFirst none (some f) fds) = files fds := by
  induction fds with
  | nil => exact Or.inr rfl
  | cons x fds ih =>
    cases x with
    | none => exact Or.inl (by simp [putFirst, files])
    | some g =>
      rcases ih with hperm | heq
      · refine Or.inl ?_
        simpa [putFirst, files] using (hperm.cons g).trans (.swap f g _)
      · refine Or.inr ?_
        simpa [putFirst, files] using heq

lemma files_drop (f : FileId) (fds : List (Option FileId)) :
    files (putFirst (some f) none fds) = (files fds).erase f := by
  induction fds with
  | nil => rfl
  | cons x fds ih =>
    cases x with
    | none => simpa [putFirst, files] using ih
    | some g =>
      by_cases hg : g = f
      · simp [putFirst, files, hg]
      · simpa [putFirst, files, hg, List.erase_cons_tail] using ih

/-- The second loop of a release clears the files that are not open. -/
lemma files_sweep (lower : List FileId) (fds : List (Option FileId)) :
    files (fds.map fun x => x.filter (· ∈ lower)) = (files fds).filter (· ∈ lower) := by
  induction fds with
  | nil => rfl
  | cons x fds ih =>
    cases x with
    | none => simpa [files] using ih
    | some g =>
      by_cases hg : g ∈ lower <;> simpa [files, Option.filter, hg] using ih

/-! ### What the calls keep -/

/-- The table holds open files, each at most once. -/
structure Ok (s : OpenFiles) : Prop where
  nodup : s.lower.Nodup
  opened : s.pvd = none → s.lower = []
  table {d : FilePvd} {g : FileId} : s.pvd = some d → g ∈ files d.openFds → g ∈ s.lower
  once {d : FilePvd} : s.pvd = some d → (files d.openFds).Nodup
  live : s.Live

variable {s s' : OpenFiles} {ino : DevId} {c : FileCall} {f : FileId}

lemma ok_init : init.Ok where
  nodup := List.nodup_nil
  opened _ := rfl
  table h := by simp [init] at h
  once h := by simp [init] at h
  live h := absurd rfl h

/-- The file that has been opened last is the one that is written to. -/
lemma Ok.wrapfsOpen (h : s.Ok) {x : Option FileId} (hs : s.wrapfsOpen ino x = .ok s') : s'.Ok := by
  cases x with
  | none => simp [OpenFiles.wrapfsOpen] at hs
  | some f =>
    simp only [OpenFiles.wrapfsOpen] at hs
    split_ifs at hs with hf
    have hnodup : (f :: s.lower).Nodup := List.nodup_cons.mpr ⟨hf, h.nodup⟩
    cases hp : s.pvd with
    | none =>
      simp only [hp] at hs
      obtain rfl := Except.ok.inj hs
      have hfiles : files (createAndAddFilePvd ino f).openFds = [f] := by
        simp [createAndAddFilePvd, files]
      refine ⟨hnodup, by simp, ?_, ?_, fun _ => ⟨_, f, rfl, rfl, by simp⟩⟩
      · rintro d g hd hg
        obtain rfl := Option.some.inj hd
        rw [hfiles, List.mem_singleton] at hg
        exact hg ▸ List.mem_cons_self
      · rintro d hd
        obtain rfl := Option.some.inj hd
        rw [hfiles]
        exact List.nodup_singleton f
    | some d =>
      simp only [hp] at hs
      obtain rfl := Except.ok.inj hs
      have hnew : f ∉ files d.openFds := fun hm => hf (h.table hp hm)
      refine ⟨hnodup, by simp, ?_, ?_, fun _ => ⟨_, f, rfl, rfl, by simp⟩⟩
      · rintro d' g hd hg
        obtain rfl := Option.some.inj hd
        rcases files_put f d.openFds with hperm | heq
        · rcases List.mem_cons.mp (hperm.mem_iff.mp hg) with rfl | hg
          · exact List.mem_cons_self
          · exact List.mem_cons_of_mem f (h.table hp hg)
        · rw [heq] at hg
          exact List.mem_cons_of_mem f (h.table hp hg)
      · rintro d' hd
        obtain rfl := Option.some.inj hd
        rcases files_put f d.openFds with hperm | heq
        · exact hperm.nodup_iff.mpr (List.nodup_cons.mpr ⟨hnew, h.once hp⟩)
        · rw [heq]
          exact h.once hp

lemma Ok.dmapMmapFile (h : s.Ok) {b : Bool} (hs : s.dmapMmapFile f b = .ok s') : s'.Ok := by
  simp only [OpenFiles.dmapMmapFile] at hs
  cases hp : s.pvd with
  | none =>
    simp only [hp] at hs
    split_ifs at hs
  | some d =>
    simp only [hp] at hs
    split_ifs at hs
    · obtain rfl := Except.ok.inj hs
      refine ⟨h.nodup, by simp, ?_, ?_, fun hne => ?_⟩
      · rintro d' g hd hg
        obtain rfl := Option.some.inj hd
        exact h.table hp hg
      · rintro d' hd
        obtain rfl := Option.some.inj hd
        exact h.once (d := d) hp
      · obtain ⟨d', g, hd, hg, hm⟩ := h.live hne
        obtain rfl : d = d' := Option.some.inj (hp.symm.trans hd)
        exact ⟨_, g, rfl, hg, hm⟩
    · obtain rfl := Except.ok.inj hs
      exact h

/-- The files of the table after a release: the second loop clears nothing. -/
lemma Ok.files_release (h : s.Ok) {d : FilePvd} (hp : s.pvd = some d) (f : FileId) :
    files (releasePvd s.lower d f).openFds = (files d.openFds).erase f := by
  have hkeep : ((files d.openFds).erase f).filter (· ∈ s.lower) = (files d.openFds).erase f :=
    List.filter_eq_self.mpr fun g hg => by simpa using h.table hp (List.mem_of_mem_erase hg)
  simp only [releasePvd]
  split_ifs
  · rw [files_sweep, files_drop, hkeep]
  · exact files_drop f d.openFds

/-- The file that is written to after a release. -/
lemma Ok.filp_release (h : s.Ok) {d : FilePvd} (hp : s.pvd = some d) (f : FileId) :
    (releasePvd s.lower d f).filp = if Vfs.releaseWrites d.data then
      ((files d.openFds).erase f).head?.or (some f) else d.filp := by
  have hfiles := h.files_release hp f
  simp only [releasePvd] at hfiles ⊢
  split_ifs at hfiles ⊢
  · have hfirst : ∀ fds, firstLive s.lower fds = (files fds).find? (· ∈ s.lower) := fun _ => rfl
    simp only [hfirst, hfiles]
    congr 1
    cases hl : (files d.openFds).erase f with
    | nil => rfl
    | cons g l =>
      have hg : g ∈ (files d.openFds).erase f := hl ▸ List.mem_cons_self
      simp [h.table hp (List.mem_of_mem_erase hg)]
  · rfl

/-- A file is released while another one can take its place. -/
lemma Ok.wrapfsFileRelease (h : s.Ok) (hs : s.wrapfsFileRelease f = .ok s')
    (hrep : s.Replaced (.wrapfsFileRelease f)) : s'.Ok := by
  simp only [OpenFiles.wrapfsFileRelease] at hs
  split_ifs at hs with hf
  obtain rfl := Except.ok.inj hs
  refine ⟨h.nodup.erase f, fun hp => ?_, ?_, ?_, fun hne => ?_⟩
  · rw [h.opened (Option.map_eq_none_iff.mp hp)]
    rfl
  · rintro d' g hd hg
    obtain ⟨d, hp, rfl⟩ := Option.map_eq_some_iff.mp hd
    rw [h.files_release hp, (h.once hp).mem_erase_iff] at hg
    exact (List.mem_erase_of_ne hg.1).mpr (h.table hp hg.2)
  · rintro d' hd
    obtain ⟨d, hp, rfl⟩ := Option.map_eq_some_iff.mp hd
    rw [h.files_release hp]
    exact (h.once hp).erase f
  · obtain ⟨d, g, hp, hg, hm⟩ := h.live (List.ne_nil_of_mem hf)
    have hother : s.lower ≠ [f] := by
      intro heq
      rw [heq] at hne
      simp at hne
    have hkeep := hrep d hp hother
    refine ⟨releasePvd s.lower d f, ?_⟩
    rw [h.filp_release hp]
    split_ifs at hkeep ⊢ with hw
    · -- the first file that is left in the table
      obtain ⟨k, hk, hmem⟩ := hkeep
      have hk' : k ∈ (files d.openFds).erase f :=
        (List.mem_erase_of_ne hk).mpr (mem_files.mpr hmem)
      cases hl : (files d.openFds).erase f with
      | nil =>
        rw [hl] at hk'
        exact absurd hk' List.not_mem_nil
      | cons x l =>
        have hx : x ∈ (files d.openFds).erase f := hl ▸ List.mem_cons_self
        rw [(h.once hp).mem_erase_iff] at hx
        exact ⟨x, by simp [hp], rfl, (List.mem_erase_of_ne hx.1).mpr (h.table hp hx.2)⟩
    · have hgf : g ≠ f := by
        rintro rfl
        exact hkeep hg
      exact ⟨g, by simp [hp], hg, (List.mem_erase_of_ne hgf).mpr hm⟩

lemma Ok.step (h : s.Ok) (hs : StepsReplaced ino s c s') : s'.Ok := by
  obtain ⟨hrep, hs⟩ := hs
  cases c with
  | wrapfsOpen x => exact h.wrapfsOpen hs
  | dmapMmapFile f b => exact h.dmapMmapFile hs
  | wrapfsFileRelease f => exact h.wrapfsFileRelease hs hrep

/-- As long as some lower file is open, the file that is written to is. -/
theorem filp_is_open (ino : DevId) (cs : List FileCall) (s : OpenFiles)
    (hr : Run (StepsReplaced ino) init cs s) (hne : s.lower ≠ []) :
    ∃ d f, s.pvd = some d ∧ d.filp = some f ∧ f ∈ s.lower := by
  have h : s.Ok := hr.invariant (fun _ _ _ h hs => h.step hs) ok_init
  exact h.live hne

instance (s : OpenFiles) (c : FileCall) : Decidable (s.Replaced c) :=
  match c with
  | .wrapfsOpen _ => .isTrue trivial
  | .dmapMmapFile _ _ => .isTrue trivial
  | .wrapfsFileRelease f =>
    decidable_of_iff (∀ d ∈ s.pvd, s.lower ≠ [f] →
      if Vfs.releaseWrites d.data then ∃ g ∈ files d.openFds, g ≠ f else d.filp ≠ some f) (by
        simp only [Replaced, Option.mem_def, mem_files, and_comm])

/-- The state after a sequence of calls that all complete, under a check of each of them. -/
def callAll (check : OpenFiles → FileCall → Bool) (ino : DevId) (s : OpenFiles)
    (cs : List FileCall) : Option OpenFiles :=
  cs.foldlM (fun s c => if check s c then (s.call ino c).toOption else none) s

/-- A file is opened twice and mapped, and the lower file of the first open is released. -/
theorem filp_is_open_mapped :
    ∃ s, Run (StepsReplaced 0) init [.wrapfsOpen (some 0), .wrapfsOpen (some 1),
        .dmapMmapFile 0 true, .wrapfsFileRelease 0] s ∧ s.lower = [1] ∧
      ∃ d f, s.pvd = some d ∧ d.filp = some f ∧ f ∈ s.lower := by
  have h : ((callAll (fun s c => decide (s.Replaced c)) 0 init [.wrapfsOpen (some 0),
      .wrapfsOpen (some 1), .dmapMmapFile 0 true, .wrapfsFileRelease 0]).map fun s => s.lower) =
      some [1] := by decide +kernel
  obtain ⟨s, hs, hl⟩ := Option.map_eq_some_iff.mp h
  have hr : Run (StepsReplaced 0) init [.wrapfsOpen (some 0), .wrapfsOpen (some 1),
      .dmapMmapFile 0 true, .wrapfsFileRelease 0] s := by
    refine Run.of_foldlM (fun s c s' hs => ?_) hs
    split_ifs at hs with hc
    exact ⟨of_decide_eq_true hc, Except.toOption_eq_some.mp hs⟩
  exact ⟨s, hr, hl, filp_is_open 0 _ s hr (by simp [hl])⟩

/-- The file is not mapped, and the lower file of the second open is released: it is still the one
that is written to. -/
theorem filp_is_released :
    ¬ ∀ (ino : DevId) (cs : List FileCall) (s : OpenFiles), Run (Calls ino) init cs s →
      s.lower ≠ [] → ∃ d f, s.pvd = some d ∧ d.filp = some f ∧ f ∈ s.lower := by
  intro hall
  have h : ((callAll (fun _ _ => true) 0 init [.wrapfsOpen (some 0), .wrapfsOpen (some 1),
      .wrapfsFileRelease 1]).map fun s => (s.lower, s.pvd.bind FilePvd.filp)) =
      some ([0], some 1) := by decide +kernel
  obtain ⟨s, hs, hp⟩ := Option.map_eq_some_iff.mp h
  obtain ⟨hlower, hfilp⟩ := Prod.mk.inj hp
  have hr : Run (Calls 0) init [.wrapfsOpen (some 0), .wrapfsOpen (some 1), .wrapfsFileRelease 1]
      s := Run.of_foldlM (fun _ _ _ hs => Except.toOption_eq_some.mp (by simpa using hs)) hs
  obtain ⟨d, f, hd, hf, hm⟩ := hall 0 _ s hr (by simp [hlower])
  obtain rfl : f = 1 := by simpa [hd, hf] using hfilp
  rw [hlower] at hm
  exact absurd hm (by decide)

end OpenFiles

end FastMap
