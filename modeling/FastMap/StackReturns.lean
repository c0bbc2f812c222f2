import FastMap.StackProgress

/-!
# Runs over a well-behaved lower file system

Where the lower file system and the kernel answer as they document, every request of every run
comes to an end, and the two levels agree after it. There is one exception, the open of a regular
file that the lower file system refuses, or for whose pvd there is no memory: `wrapfs_open` follows
the lower file before it looks at the error, and `create_and_add_file_pvd` the pvd. The file handles
of NFS, whose dentries have no lower path, are not among the requests here.
-/

namespace FastMap

variable {leaked : Multiset LowerInodeId} {more : Multiset LowerPath} {err : ℤ}

/-! ### Dentries that go -/

/-- A state without one of its dentries. -/
def Layers.without (s : Layers) (u : DentryId) : Layers :=
  { s with up := { s.up with dentries := s.up.dentries.erase u } }

/-- What is agreed without a dentry is agreed after it has gone. -/
lemma Wrapfs.Killed.coherent {t s' : Wrapfs} {u : DentryId} (hk : Wrapfs.Killed t u s')
    (h : (t.toLayers.without u).Coherent) : s'.toLayers.Coherent := by
  have hmem : ∀ {v}, v ∈ s'.up.dentries → v ∈ t.up.dentries.erase u := fun hv => hk.dentries ▸ hv
  have hd : ∀ {v}, v ∈ t.up.dentries.erase u → s'.up.dentry v = t.up.dentry v := fun hv =>
    hk.dentry (Finset.ne_of_mem_erase hv)
  refine ⟨fun hv => ?_, fun hv => ?_, fun hv hp hi => ?_, fun hi hl => ?_⟩
  · rw [hd (hmem hv)]
    exact h.path (hmem hv)
  · rw [hd (hmem hv), hk.dentries]
    exact h.parent (hmem hv)
  · rw [hd (hmem hv)] at hp hi
    rw [hk.lower, hk.inode]
    exact h.inode (hmem hv) hp hi
  · rw [hk.inode] at hl ⊢
    rw [hk.lower]
    exact h.kind (hk.inodes hi) hl

/-- A dentry without children may go. -/
lemma Layers.Coherent.without {s : Layers} {u : DentryId} (h : s.Coherent)
    (hc : ∀ v ∈ s.up.dentries, (s.up.dentry v).parent = u → v = u) : (s.without u).Coherent := by
  refine ⟨fun hv => h.path (Finset.mem_of_mem_erase hv), fun {v} hv => ?_,
    fun hv => h.inode (Finset.mem_of_mem_erase hv), h.kind⟩
  have hmem := Finset.mem_of_mem_erase hv
  exact Finset.mem_erase.mpr ⟨fun e => Finset.ne_of_mem_erase hv (hc v hmem e), h.parent hmem⟩

/-! ### Lookups -/

/-- One state differs from another by a new dentry at most. -/
structure Layers.Elsewhere (s : Layers) (u : DentryId) (t : Layers) : Prop where
  lower : t.lower = s.lower
  dentries : t.up.dentries = insert u s.up.dentries
  dentry {v : DentryId} : v ∈ s.up.dentries → t.up.dentry v = s.up.dentry v
  inodes : t.up.inodes = s.up.inodes
  inode {i : InodeId} : i ∈ s.up.inodes → t.up.inode i = s.up.inode i

lemma Layers.Elsewhere.coherent {s t : Layers} {u : DentryId} (he : s.Elsewhere u t)
    (h : s.Coherent) (hok : s.up.Ok 0 leaked) (hu : u ∉ s.up.dentries) :
    (t.without u).Coherent := by
  have hmem : ∀ {v}, v ∈ (t.without u).up.dentries ↔ v ∈ s.up.dentries := by
    intro v
    rw [without]
    simp only [he.dentries, Finset.erase_insert hu]
  refine ⟨fun {v} hv => ?_, fun {v} hv => ?_, fun {v p i} hv hp hi => ?_, fun {i li} hi hl => ?_⟩
  · show ∃ p, (t.up.dentry v).fsdata = _
    rw [he.dentry (hmem.mp hv)]
    exact h.path (hmem.mp hv)
  · refine hmem.mpr ?_
    show (t.up.dentry v).parent ∈ _
    rw [he.dentry (hmem.mp hv)]
    exact h.parent (hmem.mp hv)
  · have hp' : (t.up.dentry v).fsdata = some (some p) := hp
    have hi' : (t.up.dentry v).inode = some i := hi
    rw [he.dentry (hmem.mp hv)] at hp' hi'
    show t.lower.dInode p.dentry = (t.up.inode i).lower
    rw [he.lower, he.inode (hok.mem_inodes (hmem.mp hv) hi')]
    exact h.inode (hmem.mp hv) hp' hi'
  · have hi' : i ∈ s.up.inodes := he.inodes ▸ hi
    have hl' : (t.up.inode i).lower = some li := hl
    show (t.up.inode i).Over t.lower li
    rw [he.inode hi'] at hl' ⊢
    rw [he.lower]
    exact h.kind hi' hl'

namespace Wrapfs

variable {s s' : Wrapfs} {u : DentryId} {p : LowerPath}

/-- A new dentry with its lower path. -/
def withPath (s : Wrapfs) (u parent : DentryId) (p : LowerPath) : Wrapfs :=
  { s with
    up := { s.up with
      dentries := insert u s.up.dentries
      dentry := Function.update s.up.dentry u ⟨parent, none, some (some p), true, false⟩ }
    pins := s.pins.pathGet p }

/-- A dentry that the VFS has allocated, with empty data. -/
def withData (s : Wrapfs) (u parent : DentryId) : Wrapfs :=
  { s with
    up := { s.up with
      dentries := insert u s.up.dentries
      dentry := Function.update s.up.dentry u ⟨parent, none, some none, true, false⟩ } }

lemma setDOp_dAlloc (s : Wrapfs) (parent : DentryId) :
    ((s.dAlloc parent).newDentryPrivateData s.up.freshDentry).setDOp s.up.freshDentry =
      s.withData s.up.freshDentry parent := by
  simp [newDentryPrivateData, setDOp, Wrapfs.dAlloc, Upper.modifyDentry, withData]

lemma takeLowerPath_withData (s : Wrapfs) (u parent : DentryId) (p : LowerPath) :
    (s.withData u parent).takeLowerPath u p = s.withPath u parent p := by
  simp [takeLowerPath, setLowerPath, withData, withPath, Upper.modifyDentry]

lemma Ledger.withData (h : s.Ledger more leaked) (parent : DentryId) :
    (s.withData s.up.freshDentry parent).Ledger more leaked :=
  h.addDentry rfl rfl ⟨rfl, nofun⟩

lemma Ledger.withPath (h : s.Ledger more leaked) (parent : DentryId) (p : LowerPath) :
    (s.withPath s.up.freshDentry parent p).Ledger more leaked := by
  have := (h.withData parent).takeLowerPath (Finset.mem_insert_self _ _)
    (by simp [Wrapfs.withData]) p
  rwa [takeLowerPath_withData] at this

lemma withPath_coherent (h : s.Coherent) (hu : u ∉ s.up.dentries) {parent : DentryId}
    (hp : parent ∈ s.up.dentries) (p : LowerPath) : (s.withPath u parent p).Coherent := by
  have hne : ∀ {v}, v ∈ s.up.dentries → v ≠ u := fun hv e => hu (e ▸ hv)
  have hold : ∀ {v}, v ∈ s.up.dentries → (s.withPath u parent p).up.dentry v = s.up.dentry v :=
    fun hv => Function.update_of_ne (hne hv) _ _
  have hself : (s.withPath u parent p).up.dentry u = ⟨parent, none, some (some p), true, false⟩ :=
    Function.update_self _ _ _
  refine ⟨fun hv => ?_, fun hv => ?_, fun hv hq hi => ?_, h.kind⟩
  · rcases Finset.mem_insert.mp hv with rfl | hv
    · exact ⟨p, by rw [hself]⟩
    · rw [hold hv]
      exact h.path hv
  · refine Finset.mem_insert_of_mem ?_
    rcases Finset.mem_insert.mp hv with rfl | hv
    · rw [hself]
      exact hp
    · rw [hold hv]
      exact h.parent hv
  · rcases Finset.mem_insert.mp hv with rfl | hv
    · simp [hself] at hi
    · rw [hold hv] at hq hi
      exact h.inode hv hq hi

lemma Ledger.pathPut_returns {t : Wrapfs} (h : t.Ledger (p ::ₘ more) leaked) :
    ∃ pins, t.pins.pathPut p = .ok pins :=
  ⟨_, by rw [h.pins, Multiset.cons_add, Pins.pathPut_of]⟩

lemma Ledger.putResetLowerPath_returns {t : Wrapfs} (h : t.Ledger more leaked)
    (hu : u ∈ t.up.dentries) (hp : (t.up.dentry u).fsdata = some (some p)) :
    ∃ pins, t.putResetLowerPath u = .ok
      ⟨⟨t.lower, t.up.modifyDentry u fun d => { d with fsdata := some none }⟩, pins⟩ := by
  have hpaths : t.up.paths =
      p ::ₘ (t.up.modifyDentry u fun d => { d with fsdata := some none }).paths :=
    Upper.paths_resetPath hu hp rfl
  refine ⟨.of (more + (t.up.modifyDentry u fun d => { d with fsdata := some none }).paths), ?_⟩
  simp [Wrapfs.putResetLowerPath, hp, putLowerPath, h.pins, hpaths, Multiset.add_cons,
    Pins.pathPut_of, Except.ok_bind, Except.pure_eq_ok]

/-- What is new is the dentry. -/
lemma elsewhere_insert {d : Dentry} (hu : u ∉ s.up.dentries) :
    s.toLayers.Elsewhere u ⟨s.lower, { s.up with
      dentries := insert u s.up.dentries
      dentry := Function.update s.up.dentry u d }⟩ := by
  refine ⟨rfl, rfl, fun {v} hv => ?_, rfl, fun _ => rfl⟩
  have hvu : v ≠ u := fun e => hu (e ▸ hv)
  exact Function.update_of_ne hvu _ _

/-- What a lookup leaves: the new dentry with all that it needs if it is to stay, and everything
else as it was if it is to go. -/
structure LookedUp (u : DentryId) (ret : DentryRet) (t : Layers) : Prop where
  mem : u ∈ t.up.dentries
  stays : ret = .null → t.Coherent
  goes : ret ≠ .null → (t.without u).Coherent

/-- A lookup that fails has changed nothing but the new dentry. -/
lemma LookedUp.failed {t : Layers} {e : ℤ} (h : s.Coherent) (hok : s.up.Ok 0 leaked)
    (hu : u ∉ s.up.dentries) (he : s.toLayers.Elsewhere u t) : LookedUp u (.err e) t :=
  ⟨by rw [he.dentries]; exact Finset.mem_insert_self _ _, nofun, fun _ => he.coherent h hok hu⟩

/-- `__wrapfs_interpose` in a lookup. -/
lemma LookedUp.interposed {parent : DentryId} {o : InterposeEnv} {ret : DentryRet} {up : Upper}
    (hc : s.Coherent) (h : s.Ledger more leaked) (hparent : parent ∈ s.up.dentries)
    (ho : ∀ a, o.splice = .other a → s.IsFile a) (hret : ∀ e, ret ≠ .err e)
    (hi : (s.withPath s.up.freshDentry parent p).up.Interposed s.lower s.up.freshDentry p o ret
      up) :
    LookedUp s.up.freshDentry ret ⟨s.lower, up⟩ := by
  set u := s.up.freshDentry with hu
  have hnot : u ∉ s.up.dentries := s.up.freshDentry_notMem
  have hne : ∀ {v}, v ∈ s.up.dentries → v ≠ u := fun hv e => hnot (e ▸ hv)
  have hold : ∀ {v}, v ∈ s.up.dentries → (s.withPath u parent p).up.dentry v = s.up.dentry v :=
    fun hv => Function.update_of_ne (hne hv) _ _
  have hself : (s.withPath u parent p).up.dentry u = ⟨parent, none, some (some p), true, false⟩ :=
    Function.update_self _ _ _
  have hmem : u ∈ (s.withPath u parent p).up.dentries := Finset.mem_insert_self _ _
  have hsound : (s.withPath u parent p).toLayers.Sound leaked
      ((s.withPath u parent p).up.paths.map LowerPath.dentry) :=
    ⟨(h.withPath parent p).good, withPath_coherent hc hnot hparent p,
      fun hq => Multiset.mem_map_of_mem _ hq⟩
  have ho' : ∀ a, o.splice = .other a → a ∈ (s.withPath u parent p).up.dentries ∧
      ((s.withPath u parent p).up.dentry a).inode.isSome := by
    intro a ha
    obtain ⟨hmem, hpos⟩ := ho a ha
    exact ⟨Finset.mem_insert_of_mem hmem, by rw [hold hmem]; exact hpos⟩
  have hk := (h.withPath parent p).good.interposed hmem (by rw [hself])
    (fun a ha => (ho' a ha).2) hi
  have ht : Layers.Coherent ⟨s.lower, up⟩ :=
    (hsound.interposed hmem (by rw [hself]) (by rw [hself]) ho' hi).coherent
  refine ⟨by rw [hk.dentries]; exact hmem, fun _ => ht, fun hn => ?_⟩
  -- another dentry has taken the place of the new one, which has no children
  cases hi with
  | err _ => exact absurd rfl (hret _)
  | add _ _ _ => exact absurd rfl hn
  | @other a t ha hag =>
    refine ht.without fun v hv hvu => ?_
    by_contra hvne
    have htd : t.dentry = (s.withPath u parent p).up.dentry := by rw [hag.eq]
    have hvs : v ∈ s.up.dentries := by
      have : v ∈ t.dentries := hv
      rw [hag.eq] at this
      exact Finset.mem_of_mem_insert_of_ne this hvne
    by_cases hva : v = a
    · subst hva
      simp [Upper.dMove, Upper.modifyDentry, htd, hself] at hvu
      exact hne hparent hvu
    · simp [Upper.dMove, Upper.modifyDentry, hva, hvne, htd, hold hvs] at hvu
      exact hne (hc.parent hvs) hvu

/-- `wrapfs_lookup` between getting and putting the path of the parent, on a dentry that the VFS has
allocated. -/
lemma lookupDentry_returns {parent : DentryId} {q : LowerPath} {o : LookupEnv} (hc : s.Coherent)
    (h : s.Ledger more leaked) (hparent : parent ∈ s.up.dentries)
    (ho : ∀ a, o.interpose.splice = .other a → s.IsFile a)
    (hf : o.lookup = 0 → (s.lower.dInode o.found.dentry).isSome) :
    ∃ ret t, ((s.dAlloc parent).newDentryPrivateData s.up.freshDentry).lookupDentry
      s.up.freshDentry q o = .ok (ret, t) ∧ LookedUp s.up.freshDentry ret t.toLayers := by
  have hnot : s.up.freshDentry ∉ s.up.dentries := s.up.freshDentry_notMem
  have hself : (s.withPath s.up.freshDentry parent o.found).up.dentry s.up.freshDentry =
      ⟨parent, none, some (some o.found), true, false⟩ := Function.update_self _ _ _
  simp only [lookupDentry, setDOp_dAlloc, takeLowerPath_withData]
  split_ifs with hz hne
  · obtain ⟨li, hli⟩ := Option.isSome_iff_exists.mp (hf hz)
    have hpath := h.withPath parent o.found
    obtain ⟨⟨ret, up⟩, hint⟩ := Upper.interposeDentry_returns hpath.good (u := s.up.freshDentry)
      (p := o.found) (L := s.lower) hli (by rw [hself]) o.interpose
    have hi := Upper.interposed hpath.good.toOk hint
    have hint' : (s.withPath s.up.freshDentry parent o.found).up.interposeDentry
        (s.withPath s.up.freshDentry parent o.found).lower s.up.freshDentry o.found o.interpose =
        .ok (ret, up) := hint
    rw [hint', Except.ok_bind]
    cases ret with
    | null => exact ⟨_, _, rfl, .interposed hc h hparent ho (by simp) hi⟩
    | dentry a => exact ⟨_, _, rfl, .interposed hc h hparent ho (by simp) hi⟩
    | err e =>
      cases hi with
      | err hag =>
        have hk := hpath.good.agrees hag
        have hd : up.dentry = (s.withPath s.up.freshDentry parent o.found).up.dentry := by
          rw [hag.eq]
        have hup : Wrapfs.Ledger more leaked
            { s.withPath s.up.freshDentry parent o.found with up := up } := hpath.keeps hk rfl
        obtain ⟨pins, hput⟩ := hup.putResetLowerPath_returns (u := s.up.freshDentry) (p := o.found)
          (by rw [hk.dentries]; exact Finset.mem_insert_self _ _) (by rw [hd, hself])
        refine ⟨.err e, ⟨⟨s.lower, up.modifyDentry s.up.freshDentry fun d =>
          { d with fsdata := some none }⟩, pins⟩, ?_, ?_⟩
        · simp only [hput, Except.ok_bind, Except.pure_eq_ok]
          rfl
        refine .failed hc h.good.toOk hnot
          ⟨rfl, hk.dentries, fun {v} hv => ?_, ?_, fun hi => hag.inode hi⟩
        · have hvu : v ≠ s.up.freshDentry := fun e => hnot (e ▸ hv)
          simp [Upper.modifyDentry, hvu, hd, withPath]
        · show up.inodes = _
          rw [hag.eq]
          rfl
  · exact ⟨_, _, rfl, .failed hc h.good.toOk hnot (elsewhere_insert hnot)⟩
  · cases o.negative with
    | none => exact ⟨_, _, rfl, .failed hc h.good.toOk hnot (elsewhere_insert hnot)⟩
    | some d =>
      exact ⟨_, _, rfl, Finset.mem_insert_self _ _, fun _ => withPath_coherent hc hnot hparent _,
        fun hn => absurd rfl hn⟩

/-- The open of a regular file that the lower file system refuses, or whose pvd gets no memory. -/
def Refused (s : Wrapfs) : Request → Prop
  | .openFile _ u o => (s.up.dentry u).hashed = true ∧ o.kzalloc = true ∧ o.followsNull ∧
      ∃ i, (s.up.dentry u).inode = some i ∧ (s.up.inode i).mode = some .reg
  | _ => False

namespace Sound

lemma kill (h : s.Sound leaked) (hu : u ∈ s.up.dentries)
    (hc : ∀ v ∈ s.up.dentries, (s.up.dentry v).parent = u → v = u) :
    ∃ s', s.kill u = .ok s' ∧ s'.Sound leaked := by
  obtain ⟨s', hs, hl, hk⟩ := h.toLedger.kill hu
  exact ⟨s', hs, hl, hk.coherent (h.coherent.without hc)⟩

lemma vfsLookup {parent : DentryId} {o : LookupEnv} (h : s.Sound leaked)
    (hparent : parent ∈ s.up.dentries) (ho : ∀ a, o.interpose.splice = .other a → s.IsFile a)
    (hf : o.lookup = 0 → (s.lower.dInode o.found.dentry).isSome) :
    ∃ s', s.vfsLookup parent o = .ok s' ∧ s'.Sound leaked := by
  have hnot : s.up.freshDentry ∉ s.up.dentries := s.up.freshDentry_notMem
  obtain ⟨q, hq⟩ := h.coherent.path hparent
  have hnew : (s.dAlloc parent).up.dentry s.up.freshDentry = ⟨parent, none, none, false, false⟩ :=
    Function.update_self _ _ _
  have hold : (s.dAlloc parent).up.dentry parent = s.up.dentry parent := by
    have hne : parent ≠ s.up.freshDentry := fun e => hnot (e ▸ hparent)
    exact Function.update_of_ne hne _ _
  have hget : Wrapfs.Ledger {q} leaked { s with pins := s.pins.pathGet q } := h.toLedger.get q
  have hgetA : Wrapfs.Ledger {q} leaked { s.dAlloc parent with pins := s.pins.pathGet q } :=
    (h.toLedger.dAlloc parent).get q
  -- the work with the path of the parent
  obtain ⟨ret, t, hb, ht, hl⟩ : ∃ ret t,
      (if !o.privateData then
        .ok (.err (-enomem), { s.dAlloc parent with pins := s.pins.pathGet q })
      else (Wrapfs.newDentryPrivateData { s.dAlloc parent with pins := s.pins.pathGet q }
        s.up.freshDentry).lookupDentry s.up.freshDentry q o) = .ok (ret, t) ∧
      LookedUp s.up.freshDentry ret t.toLayers ∧ t.Ledger {q} leaked := by
    split_ifs with hpd
    · exact ⟨_, _, rfl, .failed (s := s) h.coherent h.good.toOk hnot (elsewhere_insert hnot), hgetA⟩
    · obtain ⟨ret, t, hb, ht⟩ := lookupDentry_returns (s := { s with pins := s.pins.pathGet q })
        (q := q) h.coherent hget hparent (fun a ha => ⟨(ho a ha).mem, (ho a ha).positive⟩) hf
      refine ⟨ret, t, hb, ht, (hgetA.lookupDentry (Finset.mem_insert_self _ _) (by rw [hnew])
        (by rw [hnew]) (fun a ha => ?_) hb).1⟩
      have hne : a ≠ s.up.freshDentry := fun e => hnot (e ▸ (ho a ha).mem)
      refine ⟨hne, ?_⟩
      show ((s.dAlloc parent).up.dentry a).inode.isSome
      rw [Wrapfs.dAlloc]
      simpa [hne] using (ho a ha).positive
  have hl' : t.Ledger (q ::ₘ 0) leaked := hl
  obtain ⟨pins, hpins⟩ := hl'.pathPut_returns
  have hput : Wrapfs.Ledger 0 leaked { t with pins := pins } := hl'.put rfl hpins
  have hlook : (s.dAlloc parent).lookup s.up.freshDentry o =
      .ok (ret, { t with pins := pins }) := by
    have hpath : ((s.dAlloc parent).up.dentry
        ((s.dAlloc parent).up.dentry s.up.freshDentry).parent).fsdata = some (some q) := by
      rw [hnew, hold, hq]
    exact withLowerPath_returns hpath hb hpins
  by_cases hret : ret = .null
  · refine ⟨{ t with pins := pins }, ?_, hput, ht.stays hret⟩
    simp [Wrapfs.vfsLookup, hlook, hret, Except.ok_bind, Except.pure_eq_ok]
  · obtain ⟨s', hs, hs', hk⟩ := hput.kill ht.mem
    refine ⟨s', ?_, hs', hk.coherent (ht.goes hret)⟩
    simp [Wrapfs.vfsLookup, hlook, hret, hs, Except.ok_bind]

/-- `wrapfs_open` goes wrong exactly for a regular file, when the lower file system refuses it or
there is no memory for its pvd. -/
lemma openFile {f : UpperFile} {o : OpenEnv} (h : s.Sound leaked) (hi : s.IsFile u)
    (hf : f ∉ s.up.files) :
    (s.Refused (.openFile f u o) ∧ s.openFile f u o = .error .nullDeref) ∨
    (¬ s.Refused (.openFile f u o) ∧
      ∃ err s', s.openFile f u o = .ok (err, s') ∧ s'.Sound leaked) := by
  obtain ⟨i, hin⟩ := Option.isSome_iff_exists.mp hi.positive
  obtain ⟨p, li, hp, -, hli, -, -⟩ := h.layers.positive hi.mem hin
  by_cases hh : (s.up.dentry u).hashed = true
  swap
  · exact Or.inr ⟨fun hr => hh hr.1, -enoent, s, by simp [Wrapfs.openFile, hh], h⟩
  by_cases hk : o.kzalloc = true
  swap
  · exact Or.inr ⟨fun hr => hk hr.2.1, -enomem, s, by simp [Wrapfs.openFile, hh, hk], h⟩
  have heq := openFile_eq (f := f) (o := o) hh hk hp
  simp only [hin, hli, Layers.copyAttr_some, Except.map] at heq
  by_cases hm : (s.up.inode i).mode = some .reg ∧ o.followsNull
  · exact Or.inl ⟨⟨hh, hk, hm.2, i, hin, hm.1⟩, by rw [heq, if_pos hm]⟩
  rw [if_neg hm] at heq
  have hno : ¬ s.Refused (.openFile f u o) := by
    rintro ⟨-, -, hnull, j, hj, hreg⟩
    obtain rfl : i = j := by simpa [hin] using hj
    exact hm ⟨hreg, hnull⟩
  by_cases ho : o.dentryOpen = 0
  · rw [if_pos ho] at heq
    refine Or.inr ⟨hno, 0, _, heq, h.toLedger.openFile hf heq, ?_⟩
    have hopen : Layers.Sound leaked
        ((openedAt s.up f p).paths.map LowerPath.dentry) ⟨s.lower, openedAt s.up f p⟩ :=
      ⟨{ h.good with }, { h.coherent with }, fun hq => Multiset.mem_map_of_mem _ hq⟩
    exact (hopen.setNlink i li).coherent
  · rw [if_neg ho] at heq
    exact Or.inr ⟨hno, _, _, heq, h⟩

lemma fileRelease {f : UpperFile} (h : s.Sound leaked) (hf : f ∈ s.up.files) :
    ∃ s', s.fileRelease f = .ok s' ∧ s'.Sound leaked := by
  have hpaths : s.up.paths =
      s.up.filePath f ::ₘ ({ s.up with files := s.up.files.erase f } : Upper).paths := by
    rw [Upper.paths, Upper.paths, ← holdings_erase (f := fun g => some (s.up.filePath g)) hf,
      held_some, add_left_comm, Multiset.singleton_add]
  have hs : s.fileRelease f = .ok ⟨⟨s.lower, { s.up with files := s.up.files.erase f }⟩,
      .of ({ s.up with files := s.up.files.erase f } : Upper).paths⟩ := by
    simp [Wrapfs.fileRelease, putLowerPath, h.pins, hpaths, Pins.pathPut_of, Except.ok_bind,
      Except.pure_eq_ok]
  exact ⟨_, hs, (h.toLedger.fileRelease hf hs).1, { h.coherent with }⟩

end Sound

end Wrapfs

/-! ### Runs -/

/-- The lower file system that a call leaves behind. -/
def PathRequest.fs : PathRequest → LowerFs
  | .readlink o => o.call.fs
  | .getattr call => call.fs
  | .setxattr o => o.call.fs
  | .getxattr o => o.call.fs
  | .listxattr o => o.call.fs
  | .removexattr o => o.call.fs
  | .statfs call => call.fs
  | .fsync call => call.fs
  | .revalidate _ o => o.call.fs

/-- The lower file system that a request leaves behind, if it makes a call below. -/
def Request.fs : Request → Option LowerFs
  | .create _ _ o => some o.call.fs
  | .symlink _ _ o => some o.call.fs
  | .mkdir _ _ o => some o.call.fs
  | .mknod _ _ o => some o.call.fs
  | .link _ _ o => some o.call.fs
  | .unlink _ _ o _ => some o.call.fs
  | .rmdir _ _ call _ => some call.fs
  | .rename _ _ _ _ o => some o.call.fs
  | .path _ r => some r.fs
  | .setattr _ o => some o.call.fs
  | .others fs => some fs
  | _ => none

namespace Wrapfs

variable {s s' : Wrapfs}

/-- What a lookup has found and a new name has got is there. File handles are left out: their
dentries have no lower path. -/
def Finds (s : Wrapfs) : Request → Prop
  | .lookup _ o => o.lookup = 0 → (s.lower.dInode o.found.dentry).isSome
  | .create _ u o => s.toLayers.MakesInode u o.call
  | .symlink _ u o => s.toLayers.MakesInode u o.call
  | .mkdir _ u o => s.toLayers.MakesInode u o.call
  | .mknod _ u o => s.toLayers.MakesInode u o.call
  | .nfs _ => False
  | _ => True

/-- A request of the VFS, where the lower file system answers as it documents. -/
structure Served (s : Wrapfs) (r : Request) : Prop where
  issued : s.Issued r
  kept {L : LowerFs} : r.fs = some L → s.Kept L
  finds : s.Finds r

namespace Sound

lemma execPath {u : DentryId} {r : PathRequest} (h : s.Sound leaked) (hi : s.IsFile u)
    (hL : s.Kept r.fs) : ∃ err s', s.execPath u r = .ok (err, s') ∧ s'.Sound leaked := by
  cases r with
  | revalidate rcu o =>
    by_cases hr : rcu = true
    · exact ⟨-echild, s, by simp [Wrapfs.execPath, dRevalidate, hr], h⟩
    · obtain ⟨err, s', hs, hs'⟩ := h.pathCall 1 .none hi hL
      exact ⟨err, s', by simpa [Wrapfs.execPath, dRevalidate, hr] using hs, hs'⟩
  | readlink o => exact h.pathCall _ _ hi hL
  | getattr call => exact h.pathCall _ _ (o := ⟨true, call⟩) hi hL
  | setxattr o => exact h.pathCall _ _ hi hL
  | getxattr o => exact h.pathCall _ _ hi hL
  | listxattr o => exact h.pathCall _ _ hi hL
  | removexattr o => exact h.pathCall _ _ hi hL
  | statfs call => exact h.pathCall _ _ (o := ⟨true, call⟩) hi hL
  | fsync call => exact h.pathCall _ _ (o := ⟨true, call⟩) hi hL

/-- A request comes to an end and keeps the two levels in agreement, or it is the open that goes
wrong. -/
lemma exec {r : Request} (h : s.Sound leaked) (hr : s.Served r) :
    (s.Refused r ∧ ∃ e, s.exec r = .error e) ∨
      (¬ s.Refused r ∧ ∃ s', s.exec r = .ok s' ∧ s'.Sound leaked) := by
  obtain ⟨hi, hL, hf⟩ := hr
  have hmap : ∀ {x : Except Halt (ℤ × Wrapfs)}, (∃ err s', x = .ok (err, s') ∧ s'.Sound leaked) →
      ∃ s', x.map Prod.snd = .ok s' ∧ s'.Sound leaked := by
    rintro x ⟨err, s', rfl, hs⟩
    exact ⟨s', rfl, hs⟩
  cases r with
  | lookup parent o => exact Or.inr ⟨not_false, h.vfsLookup hi.1 hi.2 hf⟩
  | create dir u o => exact Or.inr ⟨not_false, hmap (h.makeEntry hi (hL rfl) hf)⟩
  | symlink dir u o => exact Or.inr ⟨not_false, hmap (h.makeEntry hi (hL rfl) hf)⟩
  | mkdir dir u o => exact Or.inr ⟨not_false, hmap (h.makeEntry hi (hL rfl) hf)⟩
  | mknod dir u o => exact Or.inr ⟨not_false, hmap (h.makeEntry hi (hL rfl) hf)⟩
  | link old new o =>
    obtain ⟨hold, dir, hi⟩ := hi
    exact Or.inr ⟨not_false, hmap (h.link hold hi (hL rfl))⟩
  | unlink dir u o sole =>
    obtain ⟨err, t, ht, hs, hd, hh⟩ := h.unlink hi (hL rfl)
    obtain ⟨s', hs', hs''⟩ := hs.vfsRemove sole (hd ▸ hi.mem) hh
    exact Or.inr ⟨not_false, s', by rw [Wrapfs.exec, ht]; exact hs', hs''⟩
  | rmdir dir u call sole =>
    obtain ⟨err, t, ht, hs, hd, hh⟩ := h.rmdir hi (hL rfl)
    obtain ⟨s', hs', hs''⟩ := hs.vfsRemove sole (hd ▸ hi.mem) hh
    exact Or.inr ⟨not_false, s', by rw [Wrapfs.exec, ht]; exact hs', hs''⟩
  | rename oldDir old newDir new o =>
    obtain ⟨hold, hnew, -, -⟩ := hi
    obtain ⟨err, t, ht, hs, hd, hdentry⟩ := h.rename oldDir newDir hold.mem
      hnew (hL rfl)
    refine Or.inr ⟨not_false, ?_⟩
    simp only [Wrapfs.exec, vfsRename, ht, Except.ok_bind, Except.pure_eq_ok]
    refine ⟨_, rfl, ?_⟩
    split_ifs with he
    · have hpos : (t.up.dentry old).inode.isSome := by rw [hdentry]; exact hold.positive
      exact hs.of_layers rfl (hs.good.dMove hpos)
        (hs.layers.dMove (hd ▸ hold.mem) (hd ▸ hnew) hpos)
    · exact hs
  | path u r => exact Or.inr ⟨not_false, hmap (h.execPath hi (hL rfl))⟩
  | setattr u o => exact Or.inr ⟨not_false, hmap (h.setattr hi (hL rfl))⟩
  | openFile f u o =>
    rcases h.openFile hi.1 hi.2 with ⟨hr, he⟩ | ⟨hr, hs⟩
    · exact Or.inl ⟨hr, .nullDeref, by rw [Wrapfs.exec, he]; rfl⟩
    · exact Or.inr ⟨hr, hmap hs⟩
  | fileRelease f => exact Or.inr ⟨not_false, h.fileRelease hi⟩
  | kill u => exact Or.inr ⟨not_false, h.kill hi.1 hi.2⟩
  | nfs o => exact absurd hf not_false
  | others fs =>
    have hs : Wrapfs.Sound leaked { s with lower := fs } :=
      h.of_layers rfl (.refl h.good) (h.layers.call (hL rfl))
    exact Or.inr ⟨not_false, _, rfl, hs⟩

end Sound

/-- A request that is served, and that returns. -/
def ServedSteps (s : Wrapfs) (r : Request) (s' : Wrapfs) : Prop := s.Served r ∧ s.exec r = .ok s'

variable {s₀ s₁ : Wrapfs} {L : LowerFs} {o : MountEnv} {rs : List Request} {r : Request}

lemma Mounted.sound (h : Mounted leaked L o s) : s.Sound leaked := by
  obtain ⟨root, i, li, hd, hin, hroot, hinit, hli, -⟩ := h.root
  have hmem : ∀ {v}, v ∈ s.up.dentries → v = root := fun hv => by simpa [hd] using hv
  refine ⟨h.ledger, fun hv => ?_, fun hv => ?_, fun hv hp hi => ?_, fun hj hl => ?_⟩
  · obtain rfl := hmem hv
    exact ⟨o.path, by rw [hroot]⟩
  · obtain rfl := hmem hv
    rw [hroot, hd]
    exact Finset.mem_singleton_self _
  · obtain rfl := hmem hv
    rw [hroot] at hp hi
    obtain rfl := Option.some.inj (Option.some.inj hp)
    obtain rfl := Option.some.inj hi
    rw [h.lower, hinit, hli]
    rfl
  · obtain rfl : _ = i := by simpa [hin] using hj
    rw [hinit] at hl ⊢
    obtain rfl := Option.some.inj hl
    rw [h.lower]
    rfl

lemma Sound.run (h : s₁.Sound leaked) (hr : Run ServedSteps s₁ rs s) : s.Sound leaked := by
  refine hr.invariant (fun t r t' ht hstep => ?_) h
  rcases ht.exec hstep.1 with ⟨-, e, he⟩ | ⟨-, t'', he, ht''⟩
  · rw [hstep.2] at he
    simp at he
  · rw [hstep.2] at he
    exact Except.ok.inj he ▸ ht''

lemma Sound.halts_iff (h : s.Sound leaked) (hs : s.Served r) :
    (∃ e, s.exec r = .error e) ↔ s.Refused r := by
  rcases h.exec hs with ⟨hr, he⟩ | ⟨hr, s', he, -⟩
  · exact ⟨fun _ => hr, fun _ => he⟩
  · exact ⟨fun ⟨e, he'⟩ => by simp [he] at he', fun hr' => absurd hr' hr⟩

/-- A lookup of a name that the directory does not have. -/
def missing : LookupEnv := ⟨true, -enoent, ⟨0, 0⟩, ⟨⟨true, true⟩, .add⟩, some 5⟩

lemma emptyDir_missing : ∃ s₁ root s, (start emptyDir).readSuper mountEmptyDir = .ok (0, s₁) ∧
    Run ServedSteps s₁ [.lookup root missing] s := by
  obtain ⟨s₁, hm, hmounted⟩ := emptyDir_mounts
  obtain ⟨root, i, li, hd, -⟩ := hmounted.root
  have hserved : s₁.Served (.lookup root missing) :=
    ⟨⟨by simp [hd], nofun⟩, nofun, nofun⟩
  rcases hmounted.sound.exec hserved with ⟨hr, -⟩ | ⟨-, s, hs, -⟩
  · exact absurd hr not_false
  · exact ⟨s₁, root, s, hm, .snoc .nil ⟨hserved, hs⟩⟩

/-- In every state that requests without file handles reach after a mount, over a lower file system
that answers as it documents, the lower inode of an upper dentry's inode is the inode of its lower
dentry, and every upper inode has the number, the type and the operations that go with its lower
one. -/
theorem coherent_of_session (h₀ : s₀.Unmounted leaked) (hm : s₀.readSuper o = .ok (0, s₁))
    (hr : Run ServedSteps s₁ rs s) : s.Coherent :=
  ((mounted_of_readSuper h₀ hm).sound.run hr).coherent

theorem coherent_of_session_missing : ∃ s₁ root s,
    (start emptyDir).readSuper mountEmptyDir = .ok (0, s₁) ∧
      Run ServedSteps s₁ [.lookup root missing] s ∧ s.Coherent := by
  obtain ⟨s₁, root, s, hm, hr⟩ := emptyDir_missing
  exact ⟨s₁, root, s, hm, hr, coherent_of_session (start_unmounted emptyDir) hm hr⟩

/-- In every such state every further request that is no file handle comes to an end, unless it
opens a regular file that the lower file system refuses or whose pvd gets no memory: no call follows
an empty pointer, drops what it does not hold or waits for its own lock. -/
theorem halts_iff_of_session (h₀ : s₀.Unmounted leaked) (hm : s₀.readSuper o = .ok (0, s₁))
    (hr : Run ServedSteps s₁ rs s) (hs : s.Served r) :
    (∃ e, s.exec r = .error e) ↔ s.Refused r :=
  ((mounted_of_readSuper h₀ hm).sound.run hr).halts_iff hs

/-- A lower file system with a regular file in its directory. -/
def oneFile : LowerFs :=
  { emptyDir with
    dInode := fun d => if d = 0 then some 2 else if d = 1 then some 3 else none
    iMode := fun li => if li = 3 then .reg else .dir
    dInode_parent := fun _ => rfl
    dParent_unique := fun _ => rfl }

/-- The lookup of the file. -/
def found : LookupEnv := ⟨true, 0, ⟨0, 1⟩, ⟨⟨true, true⟩, .add⟩, none⟩

/-- The lower file system refuses to open the file. -/
def refused : OpenEnv := ⟨true, -13, false, true⟩

theorem halts_iff_of_session_refused : ∃ s₁ s,
    (start oneFile).readSuper mountEmptyDir = .ok (0, s₁) ∧
      Run ServedSteps s₁ [.lookup 1 found] s ∧
        ∃ e, s.exec (.openFile 0 2 refused) = .error e := by
  have h : (((start oneFile).readSuper mountEmptyDir).toOption.bind fun r =>
      (r.2.exec (.lookup 1 found)).toOption.map fun s =>
        (r.1, 1 ∈ r.2.up.dentries && (r.2.lower.dInode 1).isSome,
          2 ∈ s.up.dentries && 0 ∉ s.up.files && (s.up.dentry 2).hashed,
          (s.up.dentry 2).inode, (s.up.inode 2).mode)) =
      some (0, true, true, some 2, some .reg) := by decide +kernel
  obtain ⟨⟨err, s₁⟩, hm, h⟩ := Option.bind_eq_some_iff.mp h
  obtain ⟨s, hs, h⟩ := Option.map_eq_some_iff.mp h
  simp only [Prod.mk.injEq, Bool.and_eq_true, decide_eq_true_eq] at h
  obtain ⟨rfl, ⟨hroot, hlower⟩, ⟨⟨hmem, hfile⟩, hhashed⟩, hin, hmode⟩ := h
  have hm := Except.toOption_eq_some.mp hm
  have hr : Run ServedSteps s₁ [.lookup 1 found] s :=
    .snoc .nil ⟨⟨⟨hroot, nofun⟩, nofun, fun _ => hlower⟩, Except.toOption_eq_some.mp hs⟩
  have hserved : s.Served (.openFile 0 2 refused) :=
    ⟨⟨⟨hmem, by rw [hin]; rfl⟩, hfile⟩, nofun, trivial⟩
  refine ⟨s₁, s, hm, hr, ?_⟩
  rw [halts_iff_of_session (start_unmounted oneFile) hm hr hserved]
  exact ⟨hhashed, rfl, Or.inl (by decide), 2, hin, hmode⟩

end Wrapfs

end FastMap
