import FastMap.State
import FastMap.Lib.Run

/-!
# One pvd for each lower file

`ino_pvd_cache` maps inode numbers to pvds. Opens look a pvd up, create one when there is none, and
insert it; the removal of the last link of a file deletes its entry. Lookup, creation, insertion and
deletion are separate steps, and any number of opens and removals may be under way. The pvd records
the device it was created for, but nobody compares it.
-/

namespace FastMap

/-- A lower inode: the device of its superblock, and its number there. -/
@[ext]
structure LowerInode where
  dev : ℕ
  ino : ℕ
  deriving DecidableEq, Repr

/-- The fields of a pvd that say which file it was created for. -/
structure PvdKey where
  devId : ℕ
  ino : ℕ
  deriving DecidableEq, Repr

/-- A wrapfs file, from the start of `wrapfs_open` to its release. -/
inductive WrapfsFile where
  | closed
  /-- The lower file is open. -/
  | lookup (lower : LowerInode)
  | create (lower : LowerInode)
  | insert (lower : LowerInode) (pvd : PvdId)
  | opened (lower : LowerInode) (pvd : PvdId)
  deriving DecidableEq, Repr

/-- A call of `wrapfs_unlink`. -/
inductive UnlinkCall where
  | idle
  /-- The last link is gone. -/
  | delete (lower : LowerInode)
  | free (pvd : PvdId)
  deriving DecidableEq, Repr

structure InoCache where
  /-- `ino_pvd_cache` -/
  cache : ℕ → Option PvdId
  allocated : PvdId → Bool
  key : PvdId → PvdKey
  linked : LowerInode → Bool
  file : ℕ → WrapfsFile
  unlink : ℕ → UnlinkCall

inductive InoStep where
  /-- A new file of the lower filesystem. -/
  | mknod (lower : LowerInode)
  | wrapfsOpen (t : ℕ) (lower : LowerInode)
  | radixLookup (t : ℕ)
  | createAndAddFilePvd (t : ℕ) (pvd : PvdId)
  | radixInsert (t : ℕ)
  | release (t : ℕ)
  /-- `vfs_unlink` of the last link. -/
  | vfsUnlink (u : ℕ) (lower : LowerInode)
  | radixDelete (u : ℕ)
  | kfree (u : ℕ)

/-- The lower inode that a file holds. -/
def WrapfsFile.lower? : WrapfsFile → Option LowerInode
  | .closed => none
  | .lookup l => some l
  | .create l => some l
  | .insert l _ => some l
  | .opened l _ => some l

namespace InoCache

def init : InoCache where
  cache _ := none
  allocated _ := false
  key _ := ⟨0, 0⟩
  linked _ := false
  file _ := .closed
  unlink _ := .idle

def setFile (s : InoCache) (t : ℕ) (f : WrapfsFile) : InoCache :=
  { s with file := Function.update s.file t f }

def setUnlink (s : InoCache) (u : ℕ) (c : UnlinkCall) : InoCache :=
  { s with unlink := Function.update s.unlink u c }

/-- The lookup of `wrapfs_open`. -/
def radixLookup (s : InoCache) (t : ℕ) : Option InoCache :=
  match s.file t with
  | .lookup l =>
    match s.cache l.ino with
    | none => some (s.setFile t (.create l))
    | some v => some (s.setFile t (.opened l v))
  | _ => none

/-- `create_and_add_file_pvd` -/
def createAndAddFilePvd (s : InoCache) (t : ℕ) (v : PvdId) : Option InoCache :=
  match s.file t with
  | .create l =>
    if s.allocated v then none
    else
      some ({ s with
        allocated := Function.update s.allocated v true
        key := Function.update s.key v ⟨l.dev, l.ino⟩ }.setFile t (.insert l v))
  | _ => none

/-- The insertion of `wrapfs_open`; the file is attached to the new pvd whether or not it
succeeds. -/
def radixInsert (s : InoCache) (t : ℕ) : Option InoCache :=
  match s.file t with
  | .insert l v =>
    let s := s.setFile t (.opened l v)
    match s.cache l.ino with
    | none => some { s with cache := Function.update s.cache l.ino (some v) }
    | some _ => some s
  | _ => none

/-- The deletion of `wrapfs_unlink`. -/
def radixDelete (s : InoCache) (u : ℕ) : Option InoCache :=
  match s.unlink u with
  | .delete l =>
    match s.cache l.ino with
    | none => some (s.setUnlink u .idle)
    | some v => some ({ s with cache := Function.update s.cache l.ino none }.setUnlink u (.free v))
  | _ => none

/-- The end of `wrapfs_unlink`, when the pages of the pvd are gone. -/
def kfree (s : InoCache) (u : ℕ) : Option InoCache :=
  match s.unlink u with
  | .free v => some ({ s with allocated := Function.update s.allocated v false }.setUnlink u .idle)
  | _ => none

/-- The steps of the driver and of those who call it. Files are opened and removed by name, so only
linked ones are. -/
def exec (s : InoCache) : InoStep → Option InoCache
  | .mknod _ => none
  | .wrapfsOpen t l =>
    if s.file t = .closed ∧ s.linked l = true then some (s.setFile t (.lookup l)) else none
  | .radixLookup t => s.radixLookup t
  | .createAndAddFilePvd t v => s.createAndAddFilePvd t v
  | .radixInsert t => s.radixInsert t
  | .release t =>
    match s.file t with
    | .opened _ _ => some (s.setFile t .closed)
    | _ => none
  | .vfsUnlink u l =>
    if s.unlink u = .idle ∧ s.linked l = true then
      some ({ s with linked := Function.update s.linked l false }.setUnlink u (.delete l))
    else none
  | .radixDelete u => s.radixDelete u
  | .kfree u => s.kfree u

/-- A new lower file is given an inode that nobody holds. -/
inductive Steps (s : InoCache) : InoStep → InoCache → Prop
  | mknod {l : LowerInode} : s.linked l = false → (∀ t, (s.file t).lower? ≠ some l) →
      (∀ u, s.unlink u ≠ .delete l) →
      Steps s (.mknod l) { s with linked := Function.update s.linked l true }
  | exec {a : InoStep} {s' : InoCache} : s.exec a = some s' → Steps s a s'

/-- What is found in the cache was created for the same device, and nothing is found by an
insertion. -/
def Matches (s : InoCache) : InoStep → Bool
  | .radixLookup t =>
    match s.file t with
    | .lookup l => (s.cache l.ino).all fun v => (s.key v).devId == l.dev
    | _ => true
  | .radixInsert t =>
    match s.file t with
    | .insert l _ => (s.cache l.ino).isNone
    | _ => true
  | .radixDelete u =>
    match s.unlink u with
    | .delete l => (s.cache l.ino).all fun v => (s.key v).devId == l.dev
    | _ => true
  | _ => true

def StepsMatching (s : InoCache) (a : InoStep) (s' : InoCache) : Prop :=
  s.Matches a = true ∧ Steps s a s'

/-! ### What the steps keep -/

/-- The cache holds the pvd of every open file that is linked, under its number. -/
structure Keyed (s : InoCache) : Prop where
  entry {i : ℕ} {v : PvdId} : s.cache i = some v → s.allocated v = true ∧ (s.key v).ino = i
  opened {t : ℕ} {l : LowerInode} {v : PvdId} : s.file t = .opened l v → s.linked l = true →
    s.cache l.ino = some v ∧ (s.key v).devId = l.dev
  insert {t : ℕ} {l : LowerInode} {v : PvdId} : s.file t = .insert l v →
    s.allocated v = true ∧ s.key v = ⟨l.dev, l.ino⟩ ∧ (∀ i, s.cache i ≠ some v) ∧
      ∀ u, s.unlink u ≠ .free v
  inserts {t t' : ℕ} {l l' : LowerInode} {v : PvdId} : s.file t = .insert l v →
    s.file t' = .insert l' v → t = t'
  delete {u : ℕ} {l : LowerInode} : s.unlink u = .delete l → s.linked l = false
  free {u : ℕ} {v : PvdId} : s.unlink u = .free v → s.allocated v = true ∧ ∀ i, s.cache i ≠ some v
  frees {u u' : ℕ} {v : PvdId} : s.unlink u = .free v → s.unlink u' = .free v → u = u'

variable {s s' : InoCache} {a : InoStep} {t u : ℕ} {l : LowerInode} {v : PvdId}

lemma keyed_init : init.Keyed where
  entry h := by simp [init] at h
  opened h := by simp [init] at h
  insert h := by simp [init] at h
  inserts h := by simp [init] at h
  delete h := by simp [init] at h
  free h := by simp [init] at h
  frees h := by simp [init] at h

lemma setFile_self (s : InoCache) (t : ℕ) (f : WrapfsFile) : (s.setFile t f).file t = f :=
  Function.update_self _ _ _

lemma setFile_of_ne (s : InoCache) {t t' : ℕ} (f : WrapfsFile) (h : t' ≠ t) :
    (s.setFile t f).file t' = s.file t' :=
  Function.update_of_ne h _ _

/-- A file moves to a point where it has no pvd. -/
lemma Keyed.setFile (h : s.Keyed) {f : WrapfsFile} (ho : ∀ l v, f ≠ .opened l v)
    (hi : ∀ l v, f ≠ .insert l v) : (s.setFile t f).Keyed := by
  have hold : ∀ {t' f'}, (s.setFile t f).file t' = f' → f' ≠ f → s.file t' = f' := by
    intro t' f' hf hne
    by_cases ht : t' = t
    · subst ht
      rw [setFile_self] at hf
      exact absurd hf.symm hne
    · rwa [setFile_of_ne s f ht] at hf
  refine ⟨h.entry, fun hf => ?_, fun hf => ?_, fun hf hf' => ?_, h.delete, h.free, h.frees⟩
  · exact h.opened (hold hf (Ne.symm (ho _ _)))
  · exact h.insert (hold hf (Ne.symm (hi _ _)))
  · exact h.inserts (hold hf (Ne.symm (hi _ _))) (hold hf' (Ne.symm (hi _ _)))

/-- A file is attached to the pvd under its number, if it is linked. -/
lemma Keyed.attach (h : s.Keyed) (hl : s.linked l = true → s.cache l.ino = some v ∧
    (s.key v).devId = l.dev) : (s.setFile t (.opened l v)).Keyed := by
  refine ⟨h.entry, fun {t' l' v'} hf hlink => ?_, fun {t' l' v'} hf => ?_,
    fun {t₁ t₂ l₁ l₂ w} hf hf' => ?_, h.delete, h.free, h.frees⟩
  · by_cases ht : t' = t
    · subst ht
      rw [setFile_self] at hf
      obtain ⟨rfl, rfl⟩ := WrapfsFile.opened.inj hf
      exact hl hlink
    · rw [setFile_of_ne s _ ht] at hf
      exact h.opened hf hlink
  · have ht : t' ≠ t := by
      rintro rfl
      rw [setFile_self] at hf
      cases hf
    rw [setFile_of_ne s _ ht] at hf
    exact h.insert hf
  · have ht : t₁ ≠ t := by
      rintro rfl
      rw [setFile_self] at hf
      cases hf
    have ht' : t₂ ≠ t := by
      rintro rfl
      rw [setFile_self] at hf'
      cases hf'
    rw [setFile_of_ne s _ ht] at hf
    rw [setFile_of_ne s _ ht'] at hf'
    exact h.inserts hf hf'

lemma Keyed.radixLookup (h : s.Keyed) (hs : s.radixLookup t = some s')
    (hm : s.Matches (.radixLookup t) = true) : s'.Keyed := by
  simp only [InoCache.radixLookup] at hs
  split at hs
  · rename_i l hf
    split at hs
    · obtain rfl := Option.some.inj hs
      exact h.setFile (by simp) (by simp)
    · rename_i v hv
      obtain rfl := Option.some.inj hs
      have hdev : (s.key v).devId = l.dev := by simpa [Matches, hf, hv] using hm
      exact h.attach fun _ => ⟨hv, hdev⟩
  · cases hs

/-- A new pvd is in nobody's hands but those of the file that it is created for. -/
lemma Keyed.createAndAddFilePvd (h : s.Keyed) (hs : s.createAndAddFilePvd t v = some s') :
    s'.Keyed := by
  simp only [InoCache.createAndAddFilePvd] at hs
  split at hs
  · rename_i l hf
    split_ifs at hs with hv
    rw [Bool.not_eq_true] at hv
    obtain rfl := Option.some.inj hs
    -- whatever is allocated is another pvd, which keeps its key
    have hne : ∀ {w}, s.allocated w = true → w ≠ v := by
      rintro w hw rfl
      exact Bool.false_ne_true (hv.symm.trans hw)
    have hcache : ∀ i, s.cache i ≠ some v := fun i hi => hne (h.entry hi).1 rfl
    refine ⟨fun {i w} hi => ?_, fun {t' l' w} hf' hl => ?_, fun {t' l' w} hf' => ?_,
      fun {t₁ t₂ l₁ l₂ w} hf₁ hf₂ => ?_, h.delete, fun {u w} hu => ?_, h.frees⟩
    · obtain ⟨ha, hk⟩ := h.entry hi
      simp only [InoCache.setFile, Function.update_of_ne (hne ha)]
      exact ⟨ha, hk⟩
    · have ht : t' ≠ t := by
        rintro rfl
        rw [setFile_self] at hf'
        cases hf'
      rw [setFile_of_ne _ _ ht] at hf'
      obtain ⟨hc, hk⟩ := h.opened hf' hl
      refine ⟨hc, ?_⟩
      simp only [InoCache.setFile, Function.update_of_ne (hne (h.entry hc).1)]
      exact hk
    · by_cases ht : t' = t
      · subst ht
        rw [setFile_self] at hf'
        obtain ⟨rfl, rfl⟩ := WrapfsFile.insert.inj hf'
        refine ⟨Function.update_self _ _ _, Function.update_self _ _ _, hcache, fun u hu => ?_⟩
        exact hne (h.free hu).1 rfl
      · rw [setFile_of_ne _ _ ht] at hf'
        obtain ⟨ha, hk, hrest⟩ := h.insert hf'
        simp only [InoCache.setFile, Function.update_of_ne (hne ha)]
        exact ⟨ha, hk, hrest⟩
    · by_cases ht₁ : t₁ = t <;> by_cases ht₂ : t₂ = t
      · rw [ht₁, ht₂]
      · subst ht₁
        rw [setFile_self] at hf₁
        rw [setFile_of_ne _ _ ht₂] at hf₂
        obtain ⟨rfl, rfl⟩ := WrapfsFile.insert.inj hf₁
        exact absurd rfl (hne (h.insert hf₂).1)
      · subst ht₂
        rw [setFile_self] at hf₂
        rw [setFile_of_ne _ _ ht₁] at hf₁
        obtain ⟨rfl, rfl⟩ := WrapfsFile.insert.inj hf₂
        exact absurd rfl (hne (h.insert hf₁).1)
      · rw [setFile_of_ne _ _ ht₁] at hf₁
        rw [setFile_of_ne _ _ ht₂] at hf₂
        exact h.inserts hf₁ hf₂
    · obtain ⟨ha, hc⟩ := h.free hu
      simp only [InoCache.setFile, Function.update_of_ne (hne ha)]
      exact ⟨ha, hc⟩
  · cases hs

/-- The number is not taken, so no open file that is linked has it. -/
lemma Keyed.radixInsert (h : s.Keyed) (hs : s.radixInsert t = some s')
    (hm : s.Matches (.radixInsert t) = true) : s'.Keyed := by
  simp only [InoCache.radixInsert] at hs
  split at hs
  · rename_i l v hf
    have hnone : s.cache l.ino = none := by simpa [Matches, hf] using hm
    obtain ⟨ha, hk, hout, hfree⟩ := h.insert hf
    have hc : (s.setFile t (.opened l v)).cache l.ino = none := hnone
    rw [hc] at hs
    obtain rfl := Option.some.inj hs
    -- the file leaves its point before the cache changes
    have hclosed : (s.setFile t .closed).Keyed := h.setFile (by simp) (by simp)
    have hothers : ∀ t', t' ≠ t → ∀ l', s.file t' ≠ .insert l' v := by
      intro t' ht l' hf'
      exact ht (h.inserts hf' hf)
    have hfile : ∀ {t'}, t' ≠ t → (s.setFile t .closed).file t' = s.file t' :=
      fun ht => setFile_of_ne s _ ht
    have hmid : ({ s.setFile t .closed with
        cache := Function.update s.cache l.ino (some v) } : InoCache).Keyed := by
      refine ⟨fun {i w} hi => ?_, fun {t' l' w} hf' hl => ?_, fun {t' l' w} hf' => ?_,
        hclosed.inserts, hclosed.delete, fun {u w} hu => ?_, hclosed.frees⟩
      · by_cases hil : i = l.ino
        · subst hil
          obtain rfl : v = w := by simpa using hi
          exact ⟨ha, by rw [show (s.setFile t .closed).key = s.key from rfl, hk]⟩
        · simp only [Function.update_of_ne hil] at hi
          exact h.entry hi
      · obtain ⟨hc', hk'⟩ := hclosed.opened hf' hl
        have hne : l'.ino ≠ l.ino := by
          intro heq
          rw [heq, show (s.setFile t .closed).cache = s.cache from rfl, hnone] at hc'
          cases hc'
        simp only [Function.update_of_ne hne]
        exact ⟨hc', hk'⟩
      · obtain ⟨ha', hk', hout', hfree'⟩ := hclosed.insert hf'
        refine ⟨ha', hk', fun i hi => ?_, hfree'⟩
        by_cases hil : i = l.ino
        · subst hil
          obtain rfl : v = w := by simpa using hi
          have ht : t' ≠ t := by
            rintro rfl
            rw [setFile_self] at hf'
            cases hf'
          rw [hfile ht] at hf'
          exact hothers t' ht l' hf'
        · simp only [Function.update_of_ne hil] at hi
          exact hout' i hi
      · obtain ⟨ha', hout'⟩ := hclosed.free hu
        refine ⟨ha', fun i hi => ?_⟩
        by_cases hil : i = l.ino
        · subst hil
          obtain rfl : v = w := by simpa using hi
          exact hfree u hu
        · simp only [Function.update_of_ne hil] at hi
          exact hout' i hi
    have hend := hmid.attach (t := t) (l := l) (v := v) fun _ =>
      ⟨Function.update_self _ _ _, by rw [show ({ s.setFile t .closed with
        cache := Function.update s.cache l.ino (some v) } : InoCache).key = s.key from rfl, hk]⟩
    simpa [InoCache.setFile] using hend
  · cases hs

/-- The link count of the file drops to zero. -/
lemma Keyed.vfsUnlink (h : s.Keyed) :
    ({ s with linked := Function.update s.linked l false }.setUnlink u (.delete l)).Keyed := by
  have hlink : ∀ {l'}, Function.update s.linked l false l' = true → s.linked l' = true := by
    intro l' hl'
    by_cases heq : l' = l
    · subst heq
      rw [Function.update_self] at hl'
      exact absurd hl' Bool.false_ne_true
    · rwa [Function.update_of_ne heq] at hl'
  have hfree : ∀ {u' w}, Function.update s.unlink u (.delete l) u' = .free w →
      s.unlink u' = .free w := by
    intro u' w hu'
    by_cases heq : u' = u
    · subst heq
      rw [Function.update_self] at hu'
      cases hu'
    · rwa [Function.update_of_ne heq] at hu'
  refine ⟨h.entry, fun hf hl => h.opened hf (hlink hl), fun hf => ?_, h.inserts,
    fun {u' l'} hu' => ?_, fun hu' => h.free (hfree hu'),
    fun hu₁ hu₂ => h.frees (hfree hu₁) (hfree hu₂)⟩
  · obtain ⟨ha, hk, hout, hno⟩ := h.insert hf
    exact ⟨ha, hk, hout, fun u' hu' => hno u' (hfree hu')⟩
  · by_cases heq : l' = l
    · subst heq
      exact Function.update_self _ _ _
    · have hne : u' ≠ u := by
        rintro rfl
        simp only [setUnlink, Function.update_self, UnlinkCall.delete.injEq] at hu'
        exact heq hu'.symm
      simp only [setUnlink, Function.update_of_ne hne] at hu'
      simp only [setUnlink, Function.update_of_ne heq]
      exact h.delete hu'

/-- A call of `wrapfs_unlink` ends without a pvd to free. -/
lemma Keyed.unlinkDone (h : s.Keyed) : (s.setUnlink u .idle).Keyed := by
  have hold : ∀ {u' c}, (s.setUnlink u .idle).unlink u' = c → c ≠ .idle → s.unlink u' = c := by
    intro u' c hu' hc
    by_cases heq : u' = u
    · subst heq
      simp only [setUnlink, Function.update_self] at hu'
      exact absurd hu'.symm hc
    · simpa only [setUnlink, Function.update_of_ne heq] using hu'
  refine ⟨h.entry, h.opened, fun hf => ?_, h.inserts, fun hu' => h.delete (hold hu' (by simp)),
    fun hu' => h.free (hold hu' (by simp)),
    fun hu₁ hu₂ => h.frees (hold hu₁ (by simp)) (hold hu₂ (by simp))⟩
  obtain ⟨ha, hk, hout, hno⟩ := h.insert hf
  exact ⟨ha, hk, hout, fun u' hu' => hno u' (hold hu' (by simp))⟩

/-- The file that loses its entry is not linked any more. -/
lemma Keyed.radixDelete (h : s.Keyed) (hs : s.radixDelete u = some s')
    (hm : s.Matches (.radixDelete u) = true) : s'.Keyed := by
  simp only [InoCache.radixDelete] at hs
  split at hs
  · rename_i l hu
    split at hs
    · obtain rfl := Option.some.inj hs
      exact h.unlinkDone
    · rename_i v hv
      obtain rfl := Option.some.inj hs
      have hdev : (s.key v).devId = l.dev := by simpa [Matches, hu, hv] using hm
      obtain ⟨ha, hk⟩ := h.entry hv
      have hcache : ∀ {i w}, Function.update s.cache l.ino none i = some w →
          i ≠ l.ino ∧ s.cache i = some w := by
        intro i w hi
        by_cases heq : i = l.ino
        · subst heq
          rw [Function.update_self] at hi
          cases hi
        · rw [Function.update_of_ne heq] at hi
          exact ⟨heq, hi⟩
      -- the pvd is in the cache under one number only
      have hgone : ∀ i, Function.update s.cache l.ino none i ≠ some v := by
        intro i hi
        obtain ⟨hne, hi⟩ := hcache hi
        exact hne ((h.entry hi).2.symm.trans hk)
      have hcase : ∀ {u' w}, Function.update s.unlink u (.free v) u' = .free w →
          (u' = u ∧ w = v) ∨ (u' ≠ u ∧ w ≠ v ∧ s.unlink u' = .free w) := by
        intro u' w hu'
        by_cases heq : u' = u
        · subst heq
          rw [Function.update_self] at hu'
          exact Or.inl ⟨rfl, (UnlinkCall.free.inj hu').symm⟩
        · rw [Function.update_of_ne heq] at hu'
          refine Or.inr ⟨heq, ?_, hu'⟩
          rintro rfl
          exact (h.free hu').2 _ hv
      refine ⟨fun hi => h.entry (hcache hi).2, fun {t' l' w} hf hl => ?_, fun {t' l' w} hf => ?_,
        h.inserts, fun {u' l'} hu' => ?_, fun {u' w} hu' => ?_, fun {u₁ u₂ w} hu₁ hu₂ => ?_⟩
      · obtain ⟨hc, hd⟩ := h.opened hf hl
        have hne : l'.ino ≠ l.ino := by
          intro heq
          rw [heq] at hc
          obtain rfl : v = w := Option.some.inj (hv.symm.trans hc)
          obtain rfl : l' = l := LowerInode.ext (hd.symm.trans hdev) heq
          exact Bool.false_ne_true ((h.delete hu).symm.trans hl)
        simp only [setUnlink, Function.update_of_ne hne]
        exact ⟨hc, hd⟩
      · obtain ⟨ha', hk', hout, hno⟩ := h.insert hf
        refine ⟨ha', hk', fun i hi => hout i (hcache hi).2, fun u' hu' => ?_⟩
        rcases hcase hu' with ⟨-, rfl⟩ | ⟨-, -, hu'⟩
        · exact hout _ hv
        · exact hno u' hu'
      · have hne : u' ≠ u := by
          rintro rfl
          simp [setUnlink] at hu'
        simp only [setUnlink, Function.update_of_ne hne] at hu'
        exact h.delete hu'
      · rcases hcase hu' with ⟨-, rfl⟩ | ⟨-, -, hu'⟩
        · exact ⟨ha, hgone⟩
        · obtain ⟨ha', hout⟩ := h.free hu'
          exact ⟨ha', fun i hi => hout i (hcache hi).2⟩
      · rcases hcase hu₁ with ⟨rfl, rfl⟩ | ⟨-, hw, hu₁⟩
        · rcases hcase hu₂ with ⟨rfl, -⟩ | ⟨-, hw, -⟩
          · rfl
          · exact absurd rfl hw
        · rcases hcase hu₂ with ⟨-, rfl⟩ | ⟨-, -, hu₂⟩
          · exact absurd rfl hw
          · exact h.frees hu₁ hu₂
  · cases hs

/-- The pvd that is freed is in nobody's hands. -/
lemma Keyed.kfree (h : s.Keyed) (hs : s.kfree u = some s') : s'.Keyed := by
  simp only [InoCache.kfree] at hs
  split at hs
  · rename_i v hu
    obtain rfl := Option.some.inj hs
    obtain ⟨-, hout⟩ := h.free hu
    have hdone := h.unlinkDone (u := u)
    have hne : ∀ {w}, w ≠ v → s.allocated w = true →
        Function.update s.allocated v false w = true := by
      intro w hw ha
      rw [Function.update_of_ne hw]
      exact ha
    have hnot : ∀ {u' w}, (s.setUnlink u .idle).unlink u' = .free w → w ≠ v := by
      rintro u' w hu' rfl
      have hne' : u' ≠ u := by
        rintro rfl
        simp [setUnlink] at hu'
      simp only [setUnlink, Function.update_of_ne hne'] at hu'
      exact hne' (h.frees hu' hu)
    refine ⟨fun {i w} hi => ?_, hdone.opened, fun {t' l' w} hf => ?_, hdone.inserts, hdone.delete,
      fun {u' w} hu' => ?_, hdone.frees⟩
    · obtain ⟨ha, hk⟩ := h.entry hi
      refine ⟨hne ?_ ha, hk⟩
      rintro rfl
      exact hout i hi
    · obtain ⟨ha, hk, hc, hno⟩ := hdone.insert hf
      refine ⟨hne ?_ ha, hk, hc, hno⟩
      rintro rfl
      exact (h.insert hf).2.2.2 u hu
    · obtain ⟨ha, hc⟩ := hdone.free hu'
      exact ⟨hne (hnot hu') ha, hc⟩
  · cases hs

/-- A new lower file has an inode that nobody holds. -/
lemma Keyed.mknod (h : s.Keyed) (hf : ∀ t, (s.file t).lower? ≠ some l)
    (hu : ∀ u, s.unlink u ≠ .delete l) :
    ({ s with linked := Function.update s.linked l true } : InoCache).Keyed := by
  refine ⟨h.entry, fun {t' l' w} hf' hl => ?_, h.insert, h.inserts, fun {u' l'} hu' => ?_, h.free,
    h.frees⟩
  · have hne : l' ≠ l := by
      rintro rfl
      refine hf t' ?_
      simp only at hf'
      rw [hf']
      rfl
    simp only [Function.update_of_ne hne] at hl
    exact h.opened hf' hl
  · have hne : l' ≠ l := by
      rintro rfl
      exact hu u' hu'
    simp only [Function.update_of_ne hne]
    exact h.delete hu'

lemma Keyed.exec (h : s.Keyed) (hs : s.exec a = some s') (hm : s.Matches a = true) : s'.Keyed := by
  cases a with
  | mknod l => cases hs
  | wrapfsOpen t l =>
    simp only [InoCache.exec] at hs
    split_ifs at hs
    obtain rfl := Option.some.inj hs
    exact h.setFile (by simp) (by simp)
  | radixLookup t => exact h.radixLookup hs hm
  | createAndAddFilePvd t v => exact h.createAndAddFilePvd hs
  | radixInsert t => exact h.radixInsert hs hm
  | release t =>
    simp only [InoCache.exec] at hs
    split at hs
    · obtain rfl := Option.some.inj hs
      exact h.setFile (by simp) (by simp)
    · cases hs
  | vfsUnlink u l =>
    simp only [InoCache.exec] at hs
    split_ifs at hs with hc
    obtain rfl := Option.some.inj hs
    exact h.vfsUnlink
  | radixDelete u => exact h.radixDelete hs hm
  | kfree u => exact h.kfree hs

lemma Keyed.step (h : s.Keyed) (hs : StepsMatching s a s') : s'.Keyed := by
  obtain ⟨hm, hs⟩ := hs
  cases hs with
  | mknod _ hf hu => exact h.mknod hf hu
  | exec hs => exact h.exec hs hm

/-- Two open files that are linked are attached to the same pvd exactly when they are the same
lower file. -/
theorem one_pvd_per_lower_file (as : List InoStep) (s : InoCache)
    (hr : Run StepsMatching init as s) (t t' : ℕ) (l l' : LowerInode) (v v' : PvdId)
    (hf : s.file t = .opened l v) (hf' : s.file t' = .opened l' v') (hl : s.linked l = true)
    (hl' : s.linked l' = true) : v = v' ↔ l = l' := by
  have h : s.Keyed := hr.invariant (fun _ _ _ h hs => h.step hs) keyed_init
  obtain ⟨hc, hd⟩ := h.opened hf hl
  obtain ⟨hc', hd'⟩ := h.opened hf' hl'
  constructor
  · rintro rfl
    have hino : l.ino = l'.ino := (h.entry hc).2.symm.trans (h.entry hc').2
    exact LowerInode.ext (hd.symm.trans hd') hino
  · rintro rfl
    exact Option.some.inj (hc.symm.trans hc')

/-- The files 7 of two devices. -/
def twoFiles : InoCache :=
  { init with linked := Function.update (Function.update init.linked ⟨0, 7⟩ true) ⟨1, 7⟩ true }

lemma run_twoFiles : Run StepsMatching init [.mknod ⟨0, 7⟩, .mknod ⟨1, 7⟩] twoFiles := by
  have hnew : ∀ {s : InoCache} {l : LowerInode}, s.linked l = false → s.file = init.file →
      s.unlink = init.unlink → StepsMatching s (.mknod l)
        { s with linked := Function.update s.linked l true } := by
    intro s l hl hf hu
    refine ⟨rfl, .mknod hl (fun t => ?_) fun u => ?_⟩
    · rw [hf]
      exact (Option.some_ne_none l).symm
    · rw [hu]
      exact UnlinkCall.noConfusion
  exact (Run.nil.snoc (hnew rfl rfl rfl)).snoc (hnew (by decide) rfl rfl)

/-- The runs from there, under a check of each step. -/
def execAll (check : InoCache → InoStep → Bool) (as : List InoStep) : Option InoCache :=
  as.foldlM (fun s a => if check s a then s.exec a else none) twoFiles

/-- Two opens of one file, the second one after the first. -/
def openTwice : List InoStep :=
  [.wrapfsOpen 0 ⟨0, 7⟩, .radixLookup 0, .createAndAddFilePvd 0 3, .radixInsert 0,
    .wrapfsOpen 1 ⟨0, 7⟩, .radixLookup 1]

/-- They share a pvd. -/
theorem one_pvd_per_lower_file_twice :
    ∃ s, Run StepsMatching init ([.mknod ⟨0, 7⟩, .mknod ⟨1, 7⟩] ++ openTwice) s ∧
      s.file 0 = .opened ⟨0, 7⟩ 3 ∧ s.file 1 = .opened ⟨0, 7⟩ 3 ∧ s.linked ⟨0, 7⟩ = true ∧
      ((3 : PvdId) = 3 ↔ (⟨0, 7⟩ : LowerInode) = ⟨0, 7⟩) := by
  have h : ((execAll Matches openTwice).map fun s => (s.file 0, s.file 1, s.linked ⟨0, 7⟩)) =
      some (.opened ⟨0, 7⟩ 3, .opened ⟨0, 7⟩ 3, true) := by decide
  obtain ⟨s, hs, hp⟩ := Option.map_eq_some_iff.mp h
  simp only [Prod.mk.injEq] at hp
  obtain ⟨h₀, h₁, hl⟩ := hp
  have hr : Run StepsMatching twoFiles openTwice s := by
    refine Run.of_foldlM (fun s a s' hs => ?_) hs
    split_ifs at hs with hc
    exact ⟨hc, .exec hs⟩
  have hr' := run_twoFiles.append hr
  exact ⟨s, hr', h₀, h₁, hl, one_pvd_per_lower_file _ s hr' 0 1 _ _ 3 3 h₀ h₁ hl hl⟩

/-- Two files of different devices, opened one after the other. -/
def openOther : List InoStep :=
  [.wrapfsOpen 0 ⟨0, 7⟩, .radixLookup 0, .createAndAddFilePvd 0 3, .radixInsert 0,
    .wrapfsOpen 1 ⟨1, 7⟩, .radixLookup 1]

/-- Two opens of one file, of which the second starts before the first has inserted its pvd. -/
def openRacing : List InoStep :=
  [.wrapfsOpen 0 ⟨0, 7⟩, .radixLookup 0, .wrapfsOpen 1 ⟨0, 7⟩, .radixLookup 1,
    .createAndAddFilePvd 0 3, .radixInsert 0, .createAndAddFilePvd 1 4, .radixInsert 1]

lemma run_execAll {as : List InoStep} {s : InoCache} (h : execAll (fun _ _ => true) as = some s) :
    Run Steps init ([.mknod ⟨0, 7⟩, .mknod ⟨1, 7⟩] ++ as) s := by
  refine (run_twoFiles.mono_of_mem fun _ _ _ _ hs => hs.2).append ?_
  exact Run.of_foldlM (fun s a s' hs => .exec (by simpa using hs)) h

/-- Different files share a pvd, and one file has two. -/
theorem pvd_shared_and_split :
    (¬ ∀ (as : List InoStep) (s : InoCache), Run Steps init as s → ∀ t t' l l' v v',
      s.file t = .opened l v → s.file t' = .opened l' v' → s.linked l = true →
        s.linked l' = true → v = v' → l = l') ∧
    ¬ ∀ (as : List InoStep) (s : InoCache), Run Steps init as s → ∀ t t' l l' v v',
      s.file t = .opened l v → s.file t' = .opened l' v' → s.linked l = true →
        s.linked l' = true → l = l' → v = v' := by
  constructor
  · intro hall
    have h : ((execAll (fun _ _ => true) openOther).map fun s =>
        (s.file 0, s.file 1, s.linked ⟨0, 7⟩, s.linked ⟨1, 7⟩)) =
        some (.opened ⟨0, 7⟩ 3, .opened ⟨1, 7⟩ 3, true, true) := by decide
    obtain ⟨s, hs, hp⟩ := Option.map_eq_some_iff.mp h
    simp only [Prod.mk.injEq] at hp
    obtain ⟨h₀, h₁, hl₀, hl₁⟩ := hp
    exact absurd (hall _ s (run_execAll hs) 0 1 _ _ _ _ h₀ h₁ hl₀ hl₁ rfl) (by decide)
  · intro hall
    have h : ((execAll (fun _ _ => true) openRacing).map fun s =>
        (s.file 0, s.file 1, s.linked ⟨0, 7⟩)) =
        some (.opened ⟨0, 7⟩ 3, .opened ⟨0, 7⟩ 4, true) := by decide
    obtain ⟨s, hs, hp⟩ := Option.map_eq_some_iff.mp h
    simp only [Prod.mk.injEq] at hp
    obtain ⟨h₀, h₁, hl⟩ := hp
    exact absurd (hall _ s (run_execAll hs) 0 1 _ _ _ _ h₀ h₁ hl hl rfl) (by decide)

end InoCache

end FastMap
