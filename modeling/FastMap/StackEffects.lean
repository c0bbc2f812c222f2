import FastMap.StackRefs

/-!
# What a call can do

One statement for every call of the stacked file system: what it leaves when it returns. All of them
leave the references and locks as they found them, apart from those that come or go with an upper
dentry or an open file.
-/

namespace FastMap

variable {hand : Multiset InodeId} {leaked : Multiset LowerInodeId} {err : ℤ}

/-! ### Work on the two file systems -/

namespace Layers

variable {s s' : Layers} {u : DentryId} {p : LowerPath}

lemma of_interpose {o : InterposeEnv} (hs : s.up.Ok hand leaked)
    (h : s.interpose u p o = .ok (err, s')) : ∃ ret t,
      s.up.Interposed s.lower u p o ret t ∧ err = ret.ptrErr ∧ s' = { s with up := t } := by
  obtain ⟨⟨err', up⟩, h₁, h⟩ := Except.bind_eq_ok.mp h
  obtain ⟨rfl, rfl⟩ : err' = err ∧ _ = s' := by simpa [Except.pure_eq_ok] using h
  obtain ⟨⟨ret, t⟩, h₂, h₁⟩ := Except.bind_eq_ok.mp h₁
  obtain ⟨rfl, rfl⟩ : ret.ptrErr = err' ∧ t = up := by simpa [Except.pure_eq_ok] using h₁
  exact ⟨ret, t, Upper.interposed hs h₂, rfl, rfl⟩

/-- The number of links of an upper inode becomes that of a lower one. -/
def setNlink (s : Layers) (i : InodeId) (li : LowerInodeId) : Layers :=
  { s with up := s.up.modifyInode i fun x => { x with nlink := s.lower.iNlink li } }

lemma of_copyAttr {i : Option InodeId} {li : Option LowerInodeId} (h : s.copyAttr i li = .ok s') :
    ∃ j lj, i = some j ∧ li = some lj ∧ s' = s.setNlink j lj := by
  cases i with
  | none => simp [copyAttr, Upper.copyAttr, bind, Except.bind] at h
  | some j =>
    cases li with
    | none => simp [copyAttr, Upper.copyAttr, bind, Except.bind] at h
    | some lj =>
      refine ⟨j, lj, rfl, rfl, ?_⟩
      simpa [copyAttr, Upper.copyAttr, Except.ok_bind, Except.pure_eq_ok, setNlink, eq_comm] using h

lemma of_copyDir {links : Bool} {dir : InodeId} (h : s.copyDir links dir = .ok s') :
    ∃ li, (s.up.inode dir).lower = some li ∧ s' = if links then s.setNlink dir li else s := by
  simp only [copyDir] at h
  split at h
  next => simp at h
  next li hl =>
    refine ⟨li, hl, ?_⟩
    cases links with
    | false => simpa [eq_comm] using h
    | true =>
      obtain ⟨j, lj, hj, hlj, rfl⟩ := of_copyAttr (by simpa using h)
      rw [← Option.some.inj hj, ← Option.some.inj hlj]
      rfl

/-- A new name: the lower call was refused, its result could not be put under the dentry, or it
was. -/
inductive Made (links : Bool) (dir : InodeId) (u : DentryId) (p : LowerPath) (o : MakeEnv)
    (s : Layers) : ℤ → Layers → Prop
  | refused : o.call.err ≠ 0 → Made links dir u p o s o.call.err { s with lower := o.call.fs }
  | failed {ret : DentryRet} {t : Upper} : o.call.err = 0 →
      s.up.Interposed o.call.fs u p o.interpose ret t → ret.ptrErr ≠ 0 →
      Made links dir u p o s ret.ptrErr ⟨o.call.fs, t⟩
  | made {ret : DentryRet} {t : Upper} {li : LowerInodeId} : o.call.err = 0 →
      s.up.Interposed o.call.fs u p o.interpose ret t → ret.ptrErr = 0 →
      (t.inode dir).lower = some li →
      Made links dir u p o s 0 (if links then setNlink ⟨o.call.fs, t⟩ dir li else ⟨o.call.fs, t⟩)

lemma of_makeEntry {links : Bool} {dir : InodeId} {o : MakeEnv} (hs : s.up.Ok hand leaked)
    (h : makeEntry links dir u p o s = .ok (err, s')) : Made links dir u p o s err s' := by
  simp only [makeEntry] at h
  split_ifs at h with he
  · obtain ⟨rfl, rfl⟩ : o.call.err = err ∧ _ = s' := by simpa using h
    exact .refused he
  · obtain ⟨⟨err', s₁⟩, h₁, h⟩ := Except.bind_eq_ok.mp h
    obtain ⟨ret, t, hi, rfl, rfl⟩ := of_interpose (s := ⟨o.call.fs, s.up⟩) hs h₁
    simp only at h
    split_ifs at h with hr
    · obtain ⟨rfl, rfl⟩ : ret.ptrErr = err ∧ _ = s' := by simpa [Except.pure_eq_ok] using h
      exact .failed (not_not.mp he) hi hr
    · obtain ⟨s₂, h₂, h⟩ := Except.bind_eq_ok.mp h
      obtain ⟨li, hl, rfl⟩ := of_copyDir h₂
      obtain ⟨rfl, rfl⟩ : 0 = err ∧ _ = s' := by simpa [Except.pure_eq_ok] using h
      exact .made (not_not.mp he) hi (not_not.mp hr) hl

lemma Made.lower_eq {links : Bool} {dir : InodeId} {o : MakeEnv}
    (h : Made links dir u p o s err s') : s'.lower = o.call.fs := by
  cases h with
  | refused _ => rfl
  | failed _ _ _ => rfl
  | made _ _ _ _ => cases links <;> rfl

/-- A new link: as for a new name, and in the end the number of links of the inode is copied. A
lower dentry that stays negative is taken for a success. -/
inductive Linked (old new : DentryId) (p : LowerPath) (o : MakeEnv) (s : Layers) :
    ℤ → Layers → Prop
  | refused : o.call.err ≠ 0 ∨ o.call.fs.dInode p.dentry = none →
      Linked old new p o s o.call.err { s with lower := o.call.fs }
  | failed {ret : DentryRet} {t : Upper} : o.call.err = 0 →
      s.up.Interposed o.call.fs new p o.interpose ret t → ret.ptrErr ≠ 0 →
      Linked old new p o s ret.ptrErr ⟨o.call.fs, t⟩
  | linked {ret : DentryRet} {t : Upper} {i : InodeId} {li : LowerInodeId} : o.call.err = 0 →
      s.up.Interposed o.call.fs new p o.interpose ret t → ret.ptrErr = 0 →
      (t.dentry old).inode = some i → (t.inode i).lower = some li →
      Linked old new p o s 0 (setNlink ⟨o.call.fs, t⟩ i li)

lemma of_lowerInodeOf {i : InodeId} {li : LowerInodeId} (hi : (s.up.dentry u).inode = some i)
    (h : s.lowerInodeOf u = some li) : (s.up.inode i).lower = some li := by
  simpa [lowerInodeOf, hi] using h

lemma of_link {old new : DentryId} {o : MakeEnv} (hs : s.up.Ok hand leaked)
    (h : link old new p o s = .ok (err, s')) : Linked old new p o s err s' := by
  simp only [link] at h
  split_ifs at h with he
  · obtain ⟨rfl, rfl⟩ : o.call.err = err ∧ _ = s' := by simpa using h
    exact .refused he
  · have he' : o.call.err = 0 := by
      by_contra hne
      exact he (Or.inl hne)
    obtain ⟨⟨err', s₁⟩, h₁, h⟩ := Except.bind_eq_ok.mp h
    obtain ⟨ret, t, hi, rfl, rfl⟩ := of_interpose (s := ⟨o.call.fs, s.up⟩) hs h₁
    simp only at h
    split_ifs at h with hr
    · obtain ⟨rfl, rfl⟩ : ret.ptrErr = err ∧ _ = s' := by simpa [Except.pure_eq_ok] using h
      exact .failed he' hi hr
    · obtain ⟨s₂, h₂, h⟩ := Except.bind_eq_ok.mp h
      obtain ⟨j, lj, hj, hlj, rfl⟩ := of_copyAttr h₂
      obtain ⟨rfl, rfl⟩ : 0 = err ∧ _ = s' := by simpa [Except.pure_eq_ok] using h
      exact .linked he' hi (not_not.mp hr) hj (of_lowerInodeOf hj hlj)

lemma Linked.lower_eq {old new : DentryId} {o : MakeEnv} (h : Linked old new p o s err s') :
    s'.lower = o.call.fs := by
  cases h <;> rfl

/-- A name goes: the lower call was refused, or the number of links is copied and the dentry leaves
the cache. -/
inductive Unlinked (dir : InodeId) (u : DentryId) (p : LowerPath) (o : RemoveEnv) (s : Layers) :
    ℤ → Layers → Prop
  | refused : o.err ≠ 0 → Unlinked dir u p o s o.err { s with lower := o.call.fs }
  | unlinked {i : InodeId} {li : LowerInodeId} : o.err = 0 → (s.up.dentry u).inode = some i →
      (s.up.inode i).lower = some li → o.call.fs.dInode p.dentry ≠ none →
      Unlinked dir u p o s 0 ((setNlink ⟨o.call.fs, s.up⟩ i li).dDrop u)

lemma of_unlink {dir : InodeId} {o : RemoveEnv} (h : unlink dir u p o s = .ok (err, s')) :
    Unlinked dir u p o s err s' := by
  simp only [unlink] at h
  split_ifs at h with hd he
  · obtain ⟨rfl, rfl⟩ : o.err = err ∧ _ = s' := by simpa using h
    exact .refused he
  · obtain ⟨s₂, h₂, h⟩ := Except.bind_eq_ok.mp h
    obtain ⟨j, lj, hj, hlj, rfl⟩ := of_copyAttr h₂
    split_ifs at h with hn
    obtain ⟨rfl, rfl⟩ : 0 = err ∧ _ = s' := by simpa [Except.pure_eq_ok] using h
    exact .unlinked (not_not.mp he) hj (of_lowerInodeOf (s := ⟨o.call.fs, s.up⟩) hj hlj) hn

lemma Unlinked.lower_eq {dir : InodeId} {o : RemoveEnv} (h : Unlinked dir u p o s err s') :
    s'.lower = o.call.fs := by
  cases h <;> rfl

/-- A directory goes. -/
inductive Rmdired (dir : InodeId) (u : DentryId) (call : LowerCall) (parent : LowerDentry)
    (s : Layers) : ℤ → Layers → Prop
  | refused : call.err ≠ 0 → Rmdired dir u call parent s call.err { s with lower := call.fs }
  | removed {li : LowerInodeId} : call.err = 0 → call.fs.dInode parent = some li →
      Rmdired dir u call parent s 0
        (setNlink ((dDrop ⟨call.fs, s.up⟩ u).clearNlink (s.up.dentry u).inode) dir li)

lemma clearNlink_lower (s : Layers) (i : Option InodeId) : (s.clearNlink i).lower = s.lower := by
  cases i <;> rfl

lemma of_rmdir {dir : InodeId} {call : LowerCall} {parent : LowerDentry}
    (h : rmdir dir u call parent s = .ok (err, s')) : Rmdired dir u call parent s err s' := by
  simp only [rmdir] at h
  split_ifs at h with he
  · obtain ⟨rfl, rfl⟩ : call.err = err ∧ _ = s' := by simpa using h
    exact .refused he
  · obtain ⟨s₂, h₂, h⟩ := Except.bind_eq_ok.mp h
    obtain ⟨j, lj, hj, hlj, rfl⟩ := of_copyAttr h₂
    obtain ⟨rfl, rfl⟩ : 0 = err ∧ _ = s' := by simpa [Except.pure_eq_ok] using h
    rw [clearNlink_lower] at hlj
    obtain rfl : dir = j := Option.some.inj hj
    exact .removed (not_not.mp he) hlj

lemma Rmdired.lower_eq {dir : InodeId} {call : LowerCall} {parent : LowerDentry}
    (h : Rmdired dir u call parent s err s') : s'.lower = call.fs := by
  cases h with
  | refused _ => rfl
  | removed _ _ => exact clearNlink_lower _ _

/-- A rename: it is trapped, refused by the lower call, or both directories take over the
attributes of their lower inodes. -/
inductive Renamed (oldDir newDir : InodeId) (old new : LowerDentry) (o : RenameEnv) (s : Layers) :
    ℤ → Layers → Prop
  | trapped {e : ℤ} : e ≠ 0 → Renamed oldDir newDir old new o s e s
  | refused : o.call.err ≠ 0 →
      Renamed oldDir newDir old new o s o.call.err { s with lower := o.call.fs }
  | within {li : LowerInodeId} : o.call.err = 0 →
      o.call.fs.dInode (s.lower.dParent new) = some li → newDir = oldDir →
      Renamed oldDir newDir old new o s 0 (setNlink ⟨o.call.fs, s.up⟩ newDir li)
  | across {li lj : LowerInodeId} : o.call.err = 0 →
      o.call.fs.dInode (s.lower.dParent new) = some li →
      o.call.fs.dInode (s.lower.dParent old) = some lj → newDir ≠ oldDir →
      Renamed oldDir newDir old new o s 0
        ((setNlink ⟨o.call.fs, s.up⟩ newDir li).setNlink oldDir lj)

lemma of_rename {oldDir newDir : InodeId} {old new : LowerDentry} {o : RenameEnv}
    (h : rename oldDir newDir old new o s = .ok (err, s')) :
    Renamed oldDir newDir old new o s err s' := by
  simp only [rename] at h
  split at h
  · obtain ⟨rfl, rfl⟩ : -einval = err ∧ s = s' := by simpa using h
    exact .trapped (by decide)
  · split at h
    · obtain ⟨rfl, rfl⟩ : -enotempty = err ∧ s = s' := by simpa using h
      exact .trapped (by decide)
    · split at h
      next he =>
        obtain ⟨rfl, rfl⟩ : o.call.err = err ∧ _ = s' := by simpa using h
        exact .refused he
      next he =>
        obtain ⟨s₂, h₂, h⟩ := Except.bind_eq_ok.mp h
        obtain ⟨j, li, hj, hli, rfl⟩ := of_copyAttr h₂
        obtain rfl : newDir = j := Option.some.inj hj
        split_ifs at h with hd
        · obtain ⟨s₃, h₃, h⟩ := Except.bind_eq_ok.mp h
          obtain ⟨k, lj, hk, hlj, rfl⟩ := of_copyAttr h₃
          obtain rfl : oldDir = k := Option.some.inj hk
          obtain ⟨rfl, rfl⟩ : 0 = err ∧ _ = s' := by simpa [Except.pure_eq_ok] using h
          exact .across (not_not.mp he) hli hlj hd
        · obtain ⟨rfl, rfl⟩ : 0 = err ∧ _ = s' := by simpa [Except.pure_eq_ok] using h
          exact .within (not_not.mp he) hli (not_not.mp hd)

/-- A call that is handed on: nothing changes, the lower file system does, or the inode of the
dentry takes over the attributes of a lower inode as well. -/
inductive HandedOn (u : DentryId) (p : LowerPath) (call : LowerCall) (s : Layers) : Layers → Prop
  | unsupported : HandedOn u p call s s
  | called : HandedOn u p call s { s with lower := call.fs }
  | copied {i : InodeId} {li : LowerInodeId} : (s.up.dentry u).inode = some i →
      call.fs.dInode p.dentry = some li ∨ (s.up.inode i).lower = some li →
      HandedOn u p call s (setNlink ⟨call.fs, s.up⟩ i li)

lemma of_copyAttrFrom {call : LowerCall} {source : AttrSource}
    (h : copyAttrFrom ⟨call.fs, s.up⟩ u p source = .ok s') : HandedOn u p call s s' := by
  cases source with
  | none =>
    obtain rfl : _ = s' := by simpa [copyAttrFrom] using h
    exact .called
  | dentry =>
    obtain ⟨j, li, hj, hli, rfl⟩ := of_copyAttr h
    exact .copied hj (Or.inl hli)
  | inode =>
    obtain ⟨j, li, hj, hli, rfl⟩ := of_copyAttr h
    exact .copied hj (Or.inr (of_lowerInodeOf hj hli))

lemma of_pathCall {unsupported : ℤ} {source : AttrSource} {o : PathEnv}
    (h : pathCall unsupported source u o p s = .ok (err, s')) : HandedOn u p o.call s s' := by
  simp only [pathCall] at h
  split_ifs at h with hs he
  · obtain ⟨-, rfl⟩ : unsupported = err ∧ s = s' := by simpa using h
    exact .unsupported
  · obtain ⟨-, rfl⟩ : o.call.err = err ∧ _ = s' := by simpa using h
    exact .called
  · obtain ⟨s₂, h₂, h⟩ := Except.bind_eq_ok.mp h
    obtain ⟨-, rfl⟩ : 0 = err ∧ s₂ = s' := by simpa [Except.pure_eq_ok] using h
    exact of_copyAttrFrom h₂

end Layers

/-! ### Calls that give back what they take -/

namespace Wrapfs

variable {α : Type} {s s' : Wrapfs} {u : DentryId} {d : LowerDentry}

lemma of_getLowerPath {p : LowerPath} (h : s.getLowerPath u = .ok (p, s')) :
    (s.up.dentry u).fsdata = some (some p) ∧ s' = { s with pins := s.pins.pathGet p } := by
  simp only [getLowerPath] at h
  split at h
  next p' hf =>
    obtain ⟨rfl, rfl⟩ : p' = p ∧ _ = s' := by simpa using h
    exact ⟨hf, rfl⟩
  next => simp at h

lemma of_putLowerPath {p : LowerPath} (h : s.putLowerPath p = .ok s') :
    s'.toLayers = s.toLayers ∧ s.pins.pathPut p = .ok s'.pins := by
  obtain ⟨pins, hp, h⟩ := Except.bind_eq_ok.mp h
  obtain rfl : _ = s' := by simpa [Except.pure_eq_ok] using h
  exact ⟨rfl, hp⟩

lemma of_withLowerPath {body : LowerPath → Wrapfs → Except Halt (α × Wrapfs)} {r : α}
    (h : s.withLowerPath u body = .ok (r, s')) :
    ∃ p t, (s.up.dentry u).fsdata = some (some p) ∧
      body p { s with pins := s.pins.pathGet p } = .ok (r, t) ∧ s'.toLayers = t.toLayers ∧
      t.pins.pathPut p = .ok s'.pins := by
  obtain ⟨⟨p, s₁⟩, hp, h⟩ := Except.bind_eq_ok.mp h
  obtain ⟨⟨r', t⟩, ht, h⟩ := Except.bind_eq_ok.mp h
  obtain ⟨s₂, h₂, h⟩ := Except.bind_eq_ok.mp h
  obtain ⟨rfl, rfl⟩ : r' = r ∧ s₂ = s' := by simpa [Except.pure_eq_ok] using h
  obtain ⟨hf, rfl⟩ := of_getLowerPath hp
  obtain ⟨hl, hq⟩ := of_putLowerPath h₂
  exact ⟨p, t, hf, ht, hl, hq⟩

lemma of_withParent {body : LowerDentry → Layers → Except Halt (ℤ × Layers)}
    (h : s.withParent d body = .ok (err, s')) :
    body (s.lower.dParent d) s.toLayers = .ok (err, s'.toLayers) ∧
      (s.pins.locks = 0 → s'.pins = s.pins) := by
  obtain ⟨⟨dir, pins⟩, h₁, h⟩ := Except.bind_eq_ok.mp h
  obtain ⟨⟨err', l⟩, hb, h⟩ := Except.bind_eq_ok.mp h
  obtain ⟨pins', h₂, h⟩ := Except.bind_eq_ok.mp h
  obtain ⟨rfl, rfl⟩ : err' = err ∧ _ = s' := by simpa [Except.pure_eq_ok] using h
  have hdir : s.lower.dParent d = dir := by
    obtain ⟨t, -, ht⟩ := Except.bind_eq_ok.mp h₁
    exact congrArg Prod.fst (Except.ok.inj ht)
  refine ⟨hdir ▸ hb, fun hl => ?_⟩
  exact Pins.unlockDir_of_lockParent hl h₁ h₂

/-- The pins after a call with a lower path that has left them alone. -/
lemma pins_of_withLowerPath {p : LowerPath} {t : Wrapfs} (ht : t.pins = s.pins.pathGet p)
    (h : t.pins.pathPut p = .ok s'.pins) : s'.pins = s.pins := by
  rw [ht, Pins.pathPut_pathGet] at h
  exact (Except.ok.inj h).symm

lemma of_makeEntry {links : Bool} {dir : InodeId} {o : MakeEnv} (hs : s.up.Ok hand leaked)
    (hl : s.pins.locks = 0) (h : s.makeEntry links dir u o = .ok (err, s')) :
    s'.pins = s.pins ∧ ∃ p, (s.up.dentry u).fsdata = some (some p) ∧
      Layers.Made links dir u p o s.toLayers err s'.toLayers := by
  obtain ⟨p, t, hf, hb, ht, hp⟩ := of_withLowerPath h
  obtain ⟨hb, hpins⟩ := of_withParent hb
  refine ⟨pins_of_withLowerPath (hpins hl) hp, p, hf, ?_⟩
  rw [ht]
  exact Layers.of_makeEntry hs hb

lemma of_link {old new : DentryId} {o : MakeEnv} (hs : s.up.Ok hand leaked)
    (hl : s.pins.locks = 0) (h : s.link old new o = .ok (err, s')) :
    s'.pins = s.pins ∧ ∃ p, (s.up.dentry new).fsdata = some (some p) ∧
      Layers.Linked old new p o s.toLayers err s'.toLayers := by
  obtain ⟨⟨q, s₁⟩, h₁, h⟩ := Except.bind_eq_ok.mp h
  obtain ⟨⟨p, s₂⟩, h₂, h⟩ := Except.bind_eq_ok.mp h
  obtain ⟨⟨err', t⟩, hb, h⟩ := Except.bind_eq_ok.mp h
  obtain ⟨s₃, h₃, h⟩ := Except.bind_eq_ok.mp h
  obtain ⟨s₄, h₄, h⟩ := Except.bind_eq_ok.mp h
  obtain ⟨rfl, rfl⟩ : err' = err ∧ s₄ = s' := by simpa [Except.pure_eq_ok] using h
  obtain ⟨-, rfl⟩ := of_getLowerPath h₁
  obtain ⟨hf, rfl⟩ := of_getLowerPath h₂
  obtain ⟨hb, hpins⟩ := of_withParent hb
  obtain ⟨e₃, h₃⟩ := of_putLowerPath h₃
  obtain ⟨e₄, h₄⟩ := of_putLowerPath h₄
  refine ⟨?_, p, hf, ?_⟩
  · rw [hpins hl, Pins.pathPut_pathGet_pathGet] at h₃
    rw [← Except.ok.inj h₃, Pins.pathPut_pathGet] at h₄
    exact (Except.ok.inj h₄).symm
  · rw [e₄, e₃]
    exact Layers.of_link hs hb

lemma of_unlink {dir : InodeId} {o : RemoveEnv} (hl : s.pins.locks = 0)
    (h : s.unlink dir u o = .ok (err, s')) :
    s'.pins = s.pins ∧ ∃ p, (s.up.dentry u).fsdata = some (some p) ∧
      Layers.Unlinked dir u p o s.toLayers err s'.toLayers := by
  obtain ⟨p, t, hf, hb, ht, hp⟩ := of_withLowerPath h
  obtain ⟨⟨err', t'⟩, hw, hb⟩ := Except.bind_eq_ok.mp hb
  obtain ⟨pins, hd, hb⟩ := Except.bind_eq_ok.mp hb
  obtain ⟨rfl, rfl⟩ : err' = err ∧ _ = t := by simpa [Except.pure_eq_ok] using hb
  obtain ⟨hu, hpins⟩ := of_withParent hw
  rw [hpins hl, Pins.dput_dget] at hd
  refine ⟨pins_of_withLowerPath (Except.ok.inj hd).symm hp, p, hf, ?_⟩
  rw [ht]
  exact Layers.of_unlink hu

lemma of_rmdir {dir : InodeId} {call : LowerCall} (hl : s.pins.locks = 0)
    (h : s.rmdir dir u call = .ok (err, s')) :
    s'.pins = s.pins ∧ ∃ p, (s.up.dentry u).fsdata = some (some p) ∧
      Layers.Rmdired dir u call (s.lower.dParent p.dentry) s.toLayers err s'.toLayers := by
  obtain ⟨p, t, hf, hb, ht, hp⟩ := of_withLowerPath h
  obtain ⟨hb, hpins⟩ := of_withParent hb
  refine ⟨pins_of_withLowerPath (hpins hl) hp, p, hf, ?_⟩
  rw [ht]
  exact Layers.of_rmdir hb

lemma of_rename {oldDir newDir : InodeId} {old new : DentryId} {o : RenameEnv}
    (hl : s.pins.locks = 0) (h : s.rename oldDir old newDir new o = .ok (err, s')) :
    s'.pins = s.pins ∧ ((err ≠ 0 ∧ s'.toLayers = s.toLayers) ∨
      ∃ p q, (s.up.dentry old).fsdata = some (some p) ∧
        (s.up.dentry new).fsdata = some (some q) ∧
        Layers.Renamed oldDir newDir p.dentry q.dentry o s.toLayers err s'.toLayers) := by
  simp only [rename] at h
  split_ifs at h with hflags
  · obtain ⟨rfl, rfl⟩ : -einval = err ∧ s = s' := by simpa using h
    exact ⟨rfl, Or.inl ⟨by decide, rfl⟩⟩
  · obtain ⟨⟨p, s₁⟩, h₁, h⟩ := Except.bind_eq_ok.mp h
    obtain ⟨⟨q, s₂⟩, h₂, h⟩ := Except.bind_eq_ok.mp h
    obtain ⟨pins₁, hk, h⟩ := Except.bind_eq_ok.mp h
    obtain ⟨⟨err', l⟩, hb, h⟩ := Except.bind_eq_ok.mp h
    obtain ⟨pins₂, hu, h⟩ := Except.bind_eq_ok.mp h
    obtain ⟨pins₃, hd₁, h⟩ := Except.bind_eq_ok.mp h
    obtain ⟨pins₄, hd₂, h⟩ := Except.bind_eq_ok.mp h
    obtain ⟨s₃, h₃, h⟩ := Except.bind_eq_ok.mp h
    obtain ⟨s₄, h₄, h⟩ := Except.bind_eq_ok.mp h
    obtain ⟨rfl, rfl⟩ : err' = err ∧ s₄ = s' := by simpa [Except.pure_eq_ok] using h
    obtain ⟨hp, rfl⟩ := of_getLowerPath h₁
    obtain ⟨hq, rfl⟩ := of_getLowerPath h₂
    obtain ⟨e₃, h₃⟩ := of_putLowerPath h₃
    obtain ⟨e₄, h₄⟩ := of_putLowerPath h₄
    refine ⟨?_, Or.inr ⟨p, q, hp, hq, ?_⟩⟩
    · -- the parents and then the paths are put in the order in which they were got
      have hl' : (((s.pins.pathGet p).pathGet q).dget (s.lower.dParent p.dentry) |>.dget
          (s.lower.dParent q.dentry)).locks = 0 := hl
      rw [Pins.unlockRename_of_lockRename hl' hk hu, Pins.dput_dget_dget] at hd₁
      rw [← Except.ok.inj hd₁, Pins.dput_dget] at hd₂
      rw [← Except.ok.inj hd₂, Pins.pathPut_pathGet_pathGet] at h₃
      rw [← Except.ok.inj h₃, Pins.pathPut_pathGet] at h₄
      exact (Except.ok.inj h₄).symm
    · rw [e₄, e₃]
      exact Layers.of_rename hb

lemma of_pathCall {unsupported : ℤ} {source : AttrSource} {o : PathEnv}
    (h : s.pathCall unsupported source u o = .ok (err, s')) :
    s'.pins = s.pins ∧ ∃ p, (s.up.dentry u).fsdata = some (some p) ∧
      Layers.HandedOn u p o.call s.toLayers s'.toLayers := by
  obtain ⟨p, t, hf, hb, ht, hp⟩ := of_withLowerPath h
  obtain ⟨⟨err', l⟩, hc, hb⟩ := Except.bind_eq_ok.mp hb
  obtain ⟨rfl, rfl⟩ : err' = err ∧ _ = t := by simpa [Except.pure_eq_ok] using hb
  refine ⟨pins_of_withLowerPath rfl hp, p, hf, ?_⟩
  rw [ht]
  exact Layers.of_pathCall hc

lemma of_notifyChange {call : LowerCall} (hl : s.pins.locks = 0)
    (h : s.notifyChange d call = .ok s') : s' = { s with lower := call.fs } := by
  simp only [notifyChange] at h
  split at h
  next => simp at h
  next li hd =>
    obtain ⟨pins₁, h₁, h⟩ := Except.bind_eq_ok.mp h
    obtain ⟨pins₂, h₂, h⟩ := Except.bind_eq_ok.mp h
    obtain rfl : _ = s' := by simpa [Except.pure_eq_ok] using h
    obtain ⟨-, rfl⟩ := Pins.inodeLock_eq_ok.mp h₁
    obtain ⟨i, -, hi, rfl⟩ := Pins.inodeUnlock_eq_ok.mp h₂
    obtain rfl : i = li := by simpa [hl] using hi
    simp

lemma of_setattr {o : SetattrCall} (hl : s.pins.locks = 0)
    (h : s.setattr u o = .ok (err, s')) : s'.pins = s.pins ∧ (s'.toLayers = s.toLayers ∨
      ∃ p, (s.up.dentry u).fsdata = some (some p) ∧
        Layers.HandedOn u p o.call s.toLayers s'.toLayers) := by
  simp only [setattr] at h
  split at h
  · obtain ⟨-, rfl⟩ : o.prepare = err ∧ s = s' := by simpa using h
    exact ⟨rfl, Or.inl rfl⟩
  · obtain ⟨p, t, hf, hb, ht, hp⟩ := of_withLowerPath h
    split at hb
    · obtain ⟨-, rfl⟩ : o.newsizeOk = err ∧ _ = t := by simpa using hb
      exact ⟨pins_of_withLowerPath rfl hp, Or.inl ht⟩
    · obtain ⟨t₁, h₁, hb⟩ := Except.bind_eq_ok.mp hb
      obtain rfl := of_notifyChange (s := { s with pins := s.pins.pathGet p }) hl h₁
      split at hb
      · obtain ⟨-, rfl⟩ : o.call.err = err ∧ _ = t := by simpa [Except.pure_eq_ok] using hb
        exact ⟨pins_of_withLowerPath rfl hp, Or.inr ⟨p, hf, ht ▸ .called⟩⟩
      · obtain ⟨l, h₂, hb⟩ := Except.bind_eq_ok.mp hb
        obtain ⟨-, rfl⟩ : 0 = err ∧ _ = t := by simpa [Except.pure_eq_ok] using hb
        refine ⟨pins_of_withLowerPath rfl hp, Or.inr ⟨p, hf, ht ▸ ?_⟩⟩
        exact Layers.of_copyAttrFrom (s := s.toLayers) h₂

/-! ### Open files -/

/-- The upper objects with one more open file. -/
def openedAt (s : Upper) (f : UpperFile) (p : LowerPath) : Upper :=
  { s with files := insert f s.files, filePath := Function.update s.filePath f p }

/-- What `wrapfs_open` does once it has memory for the file: whatever `dentry_open` answers, the
references of the call itself are given back. -/
lemma openFile_eq {f : UpperFile} {o : OpenEnv} {p : LowerPath}
    (hh : (s.up.dentry u).hashed = true) (hk : o.kzalloc = true)
    (hf : (s.up.dentry u).fsdata = some (some p)) :
    s.openFile f u o = match (s.up.dentry u).inode with
      | none => .error .nullDeref
      | some i =>
        if (s.up.inode i).mode = some .reg ∧ o.followsNull then .error .nullDeref
        else if o.dentryOpen = 0 then
          (Layers.copyAttr ⟨s.lower, openedAt s.up f p⟩ (some i) (s.up.inode i).lower).map
            fun l => (0, ⟨l, s.pins.pathGet p⟩)
        else .ok (o.dentryOpen, s) := by
  by_cases ho : o.dentryOpen = 0
  · simp only [openFile, hh, hk, getLowerPath, hf, ho, putLowerPath, Pins.pathPut_pathGet,
      Except.ok_bind, Except.pure_eq_ok, Bool.not_true, Bool.false_eq_true, if_false, if_true]
    cases (s.up.dentry u).inode with
    | none => rfl
    | some i =>
      simp only [Layers.copyAttr, openedAt]
      split_ifs
      · rfl
      · cases Upper.copyAttr _ s.lower (some i) (s.up.inode i).lower <;> rfl
  · simp only [openFile, hh, hk, getLowerPath, hf, ho, putLowerPath, Pins.pathPut_pathGet,
      Except.ok_bind, Except.pure_eq_ok, Bool.not_true, Bool.false_eq_true, if_false]
    cases (s.up.dentry u).inode <;> rfl

/-- A file that is opened holds the lower path of its dentry; a failure changes nothing. -/
lemma of_openFile {f : UpperFile} {o : OpenEnv} (h : s.openFile f u o = .ok (err, s')) :
    (err ≠ 0 ∧ s' = s) ∨ ∃ p i li, err = 0 ∧ (s.up.dentry u).fsdata = some (some p) ∧
      s' = ⟨Layers.setNlink ⟨s.lower, openedAt s.up f p⟩ i li, s.pins.pathGet p⟩ := by
  by_cases hh : (s.up.dentry u).hashed = true
  · by_cases hk : o.kzalloc = true
    · have hpath : ∃ p, (s.up.dentry u).fsdata = some (some p) := by
        simp only [openFile, hh, hk, Bool.not_true, Bool.false_eq_true, if_false] at h
        obtain ⟨⟨p, s₁⟩, h₁, -⟩ := Except.bind_eq_ok.mp h
        exact ⟨p, (of_getLowerPath h₁).1⟩
      obtain ⟨p, hf⟩ := hpath
      rw [openFile_eq hh hk hf] at h
      split at h
      next => simp at h
      next i hi =>
        split_ifs at h with hm ho
        · obtain ⟨l, hl, he⟩ := Except.map_eq_ok.mp h
          obtain ⟨j, li, -, -, rfl⟩ := Layers.of_copyAttr hl
          obtain ⟨rfl, rfl⟩ : 0 = err ∧ _ = s' := by simpa using he
          exact Or.inr ⟨p, j, li, rfl, hf, rfl⟩
        · obtain ⟨rfl, rfl⟩ : o.dentryOpen = err ∧ s = s' := by simpa using h
          exact Or.inl ⟨ho, rfl⟩
    · obtain ⟨rfl, rfl⟩ : -enomem = err ∧ s = s' := by simpa [openFile, hh, hk] using h
      exact Or.inl ⟨by decide, rfl⟩
  · obtain ⟨rfl, rfl⟩ : -enoent = err ∧ s = s' := by simpa [openFile, hh] using h
    exact Or.inl ⟨by decide, rfl⟩

end Wrapfs

end FastMap
