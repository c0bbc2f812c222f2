import FastMap.ReadWrite

/-!
# Merged writes

What the requests of `write_bio_async` and `write_file_async` amount to, compared with writing the
pages of the array one by one with `write_bio_tagged_page`.
-/

namespace FastMap

namespace State

variable {C : Type*} {s : State C} {pgs : List PageId} {p : PageId}

/-! ### Page by page -/

/-- What is issued for an array of pages of one file, as its pages in order. -/
lemma writeMerged_eq {v : PvdId} (hv : ∀ p ∈ pgs, (s.pages p).pvd = some v) :
    s.writeMerged pgs = ((List.range pgs.length).flatMap (s.requestPages pgs)).map fun p =>
      ⟨(s.pvds v).bk, (s.pages p).index, (s.pages p).content⟩ := by
  rw [writeMerged, List.map_flatMap]
  exact List.flatMap_congr fun i hi => request_eq (List.mem_range.mp hi) hv

lemma flatMap_requestPages (s : State C) (pgs : List PageId) :
    (List.range pgs.length).flatMap (s.requestPages pgs) =
      ((mergeUpTo (s.indices pgs) (pgs.length - 1)).positions pgs.length).map
        fun j => pgs.getD j 0 := by
  rw [Merge.positions, List.map_flatMap]
  refine List.flatMap_congr fun i _ => ?_
  rw [requestPages, List.map_map, mergeArr_eq]
  rfl

/-- The requests contain the pages in order, unless a run is too long. -/
lemma flatMap_requestPages_eq (hl : ¬ LongRun (s.indices pgs) pgs.length) :
    (List.range pgs.length).flatMap (s.requestPages pgs) = pgs := by
  rw [flatMap_requestPages]
  cases hn : pgs.length with
  | zero =>
    rw [List.length_eq_zero_iff.mp hn]
    rfl
  | succ n =>
    have hshort : ∀ j ≤ n, runLen (s.indices pgs) j ≤ 256 := by
      intro j hj
      by_contra hlong
      exact hl (exists_lost_iff.mp (exists_lost (by omega) (not_le.mp hlong)))
    rw [Nat.add_sub_cancel, positions_mergeUpTo hshort]
    apply List.ext_getElem
    · simp [hn]
    · intro j h₁ h₂
      rw [List.getElem_map, List.getElem_range, List.getD_eq_getElem _ _ h₂]

lemma flatMap_writeBioTaggedPage {v : PvdId} (hv : ∀ p ∈ pgs, (s.pages p).pvd = some v) :
    pgs.flatMap s.writeBioTaggedPage = pgs.map fun p =>
      ⟨(s.pvds v).bk, (s.pages p).index, (s.pages p).content⟩ := by
  rw [List.map_eq_flatMap]
  refine List.flatMap_congr fun p hp => ?_
  simp only [writeBioTaggedPage, hv p hp]

/-- `write_bio_async` and `write_file_async` do what `write_bio_tagged_page` would do for one page
after the other: every position is in a request, every page is written at its own offset, and the
devices end up the same. -/
structure WritesEach (t : PvdType) (s : State C) (pgs : List PageId) : Prop where
  covered {j : ℕ} : j < pgs.length → ∃ i < pgs.length, InRequest (s.indices pgs) pgs.length i j
  written {p : PageId} {b : BlockWrite C} : p ∈ pgs → b ∈ s.writeBioTaggedPage p →
    b ∈ driverWriter t s pgs
  same : s.writeBlocks (driverWriter t s pgs) = s.writeBlocks (pgs.flatMap s.writeBioTaggedPage)

lemma WritesEach.not_longRun {t : PvdType} (h : WritesEach t s pgs) :
    ¬ LongRun (s.indices pgs) pgs.length := by
  intro hl
  obtain ⟨j, hj, hlost⟩ := exists_lost_iff.mpr hl
  exact (exists_inRequest_iff hj).mp (h.covered hj) hlost

/-- They do so exactly when no run is too long. -/
theorem writesEach_iff (t : PvdType) (s : State C) (v : PvdId) (pgs : List PageId)
    (hv : ∀ p ∈ pgs, (s.pages p).pvd = some v) :
    WritesEach t s pgs ↔ ¬ LongRun (s.indices pgs) pgs.length := by
  constructor
  · exact WritesEach.not_longRun
  · intro hl
    have heq : driverWriter t s pgs = pgs.flatMap s.writeBioTaggedPage := by
      rw [driverWriter_eq _ hv, writeMerged_eq hv, flatMap_requestPages_eq hl,
        flatMap_writeBioTaggedPage hv]
    constructor
    · intro j hj
      apply (exists_inRequest_iff hj).mpr
      exact fun hlost => hl (exists_lost_iff.mp ⟨j, hj, hlost⟩)
    · intro p b hp hb
      rw [heq]
      exact List.mem_flatMap.mpr ⟨p, hp, hb⟩
    · rw [heq]

/-- The pages of a buffer that caches a file from its start. -/
def cachedFile : State ℕ :=
  let s := initParams smallEnv smallWorld
  { s with pages := fun p => { s.pages p with index := p, pvd := some 0, content := p } }

lemma indices_cachedFile {n j : ℕ} (hj : j < n) : cachedFile.indices (List.range n) j = j := by
  simp [indices, cachedFile, hj]

/-- Up to 256 pages in a row are written in full. -/
theorem writesEach_cachedFile :
    (∀ p ∈ List.range 256, (cachedFile.pages p).pvd = some 0) ∧
      WritesEach .blkd cachedFile (List.range 256) ∧
      WritesEach .file cachedFile (List.range 256) := by
  have hl : ¬ LongRun (cachedFile.indices (List.range 256)) (List.range 256).length := by
    rintro ⟨i, hi, -⟩
    rw [List.length_range] at hi
    omega
  exact ⟨fun _ _ => rfl, (writesEach_iff .blkd _ 0 _ fun _ _ => rfl).mpr hl,
    (writesEach_iff .file _ 0 _ fun _ _ => rfl).mpr hl⟩

/-- The last one of 257 pages in a row is not written. -/
theorem merged_write_loses_page :
    ¬ ∀ (t : PvdType) (s : State ℕ) (v : PvdId) (pgs : List PageId), pgs ≠ [] →
      (∀ p ∈ pgs, (s.pages p).pvd = some v) → WritesEach t s pgs := by
  intro hall
  have h := hall .blkd cachedFile 0 (List.range 257) (by simp) fun _ _ => rfl
  refine h.not_longRun ⟨0, by simp, fun k hk => ?_⟩
  rw [indices_cachedFile (by omega), indices_cachedFile (by omega)]

end State

namespace Mount

open State

/-! ### The size of a lower file -/

/-- The lower `write_iter` for the blocks of one request. -/
def writeIter (m : Mount) (bs : List (BlockWrite PageBytes)) : Mount :=
  match bs with
  | [] => m
  | b :: _ =>
    resize ⟨m.st.writeBlocks bs, m.iSize⟩ (Function.update m.iSize b.dev
      (max (m.iSize b.dev) (b.off * pageSize + bs.length * pageSize)))

/-- `write_file_async` on locked pages, with its effect on the sizes. -/
def writeFileAsync (m : Mount) (pgs : List PageId) : Mount :=
  (List.range pgs.length).foldl (fun m' i => m'.writeIter (m.st.request pgs i)) m

variable {m : Mount} {pgs : List PageId} {p : PageId} {v : PvdId} {d : DevId}

lemma disk_writeIter (m : Mount) (bs : List (BlockWrite PageBytes)) :
    (m.writeIter bs).st.disk = (m.st.writeBlocks bs).disk := by
  cases bs <;> rfl

lemma disk_writeFileAsync (m : Mount) (pgs : List PageId) :
    (m.writeFileAsync pgs).st.disk = (m.st.writeBlocks (m.st.writeMerged pgs)).disk := by
  have hloop : ∀ (l : List ℕ) (m' : Mount),
      (l.foldl (fun m' i => m'.writeIter (m.st.request pgs i)) m').st.disk =
        (m'.st.writeBlocks (l.flatMap (m.st.request pgs))).disk := by
    intro l
    induction l with
    | nil => exact fun _ => rfl
    | cons i l ih =>
      intro m'
      rw [List.foldl_cons, ih, List.flatMap_cons]
      simp only [writeBlocks, List.foldl_append, disk_writeIter]
  exact hloop _ m

/-- A request that ends within the first `n` bytes of the file. -/
lemma iSize_writeIter_le {k n : ℕ} {d' : DevId} {off : Pgoff} {c : ℕ → PageBytes} :
    (m.writeIter ((List.range k).map fun j => ⟨d', off + j, c j⟩)).iSize d ≤ n ↔
      m.iSize d ≤ n ∧ ∀ j < k, d' = d → (off + j + 1) * pageSize ≤ n := by
  cases k with
  | zero => simp [writeIter]
  | succ k =>
    rw [List.range_succ_eq_map]
    simp only [writeIter, List.map_cons, resize, List.length_cons, List.length_map,
      List.length_range]
    by_cases hd : d' = d
    · subst hd
      rw [Function.update_self, max_le_iff]
      refine and_congr_right fun _ => ⟨fun h j hj _ => ?_, fun h => ?_⟩
      · refine le_trans ?_ h
        rw [Nat.add_zero, ← Nat.add_mul]
        exact Nat.mul_le_mul_right _ (by omega)
      · have := h k (Nat.lt_succ_self k) rfl
        rw [Nat.add_zero, ← Nat.add_mul]
        exact this
    · rw [Function.update_of_ne (Ne.symm hd)]
      simp [hd]

/-- The size after a batch: every request counts. -/
lemma iSize_writeFileAsync_le {n : ℕ} (hv : ∀ p ∈ pgs, (m.st.pages p).pvd = some v) :
    (m.writeFileAsync pgs).iSize (m.st.pvds v).bk ≤ n ↔ m.iSize (m.st.pvds v).bk ≤ n ∧
      ∀ b ∈ m.st.writeMerged pgs, (b.off + 1) * pageSize ≤ n := by
  have hloop : ∀ (l : List ℕ) (m' : Mount), (∀ i ∈ l, i < pgs.length) →
      ((l.foldl (fun m' i => m'.writeIter (m.st.request pgs i)) m').iSize (m.st.pvds v).bk ≤ n ↔
        m'.iSize (m.st.pvds v).bk ≤ n ∧
          ∀ b ∈ l.flatMap (m.st.request pgs), (b.off + 1) * pageSize ≤ n) := by
    intro l
    induction l with
    | nil => simp
    | cons i l ih =>
      intro m' hl
      rw [List.foldl_cons, ih _ fun j hj => hl j (List.mem_cons_of_mem _ hj)]
      have hpvd := hv _ (getD_mem (hl i List.mem_cons_self))
      simp only [request, hpvd, iSize_writeIter_le, List.flatMap_cons, List.mem_append, or_imp,
        forall_and, and_assoc, List.mem_map, List.mem_range, forall_exists_index, and_imp,
        forall_apply_eq_imp_iff₂, forall_const]
  exact hloop _ m fun i hi => List.mem_range.mp hi

/-- The sizes are those that the calls of the driver leave. -/
lemma iSize_writeFileAsync (hv : ∀ p ∈ pgs, (m.st.pages p).pvd = some v)
    (ht : (m.st.pvds v).type = .file) :
    (m.writeFileAsync pgs).iSize (m.st.pvds v).bk = m.grown [pgs] (m.st.pvds v).bk := by
  refine eq_of_forall_ge_iff fun n => ?_
  rw [iSize_writeFileAsync_le hv, grown, max_le_iff, Finset.sup_le_iff]
  refine and_congr_right fun _ => ⟨fun h p hp => ?_, fun h b hb => ?_⟩
  · obtain ⟨r, hr, hpr⟩ : ∃ r ∈ m.st.requests pgs, p ∈ r := by simpa using hp
    rw [pageEnd, hv p (mem_of_mem_request hr hpr)]
    simp only [ht, and_self, if_true]
    have hb := (mem_writeMerged hv).mpr ⟨r, hr, p, hpr, rfl⟩
    have hend := h _ hb
    exact hend
  · obtain ⟨r, hr, p, hpr, rfl⟩ := (mem_writeMerged hv).mp hb
    have hp := h p (by simpa using ⟨r, hr, hpr⟩)
    rw [pageEnd, hv p (mem_of_mem_request hr hpr)] at hp
    simpa [ht] using hp

/-- After `write_file_async` on pages of file `v` the lower file has the size it had, and the
content of the pages in place of the old one. -/
structure KeepsFile (m : Mount) (v : PvdId) (pgs : List PageId) : Prop where
  size : (m.writeFileAsync pgs).iSize (m.st.pvds v).bk = m.iSize (m.st.pvds v).bk
  bytes {p : PageId} {x : ℕ} : p ∈ pgs → x / pageSize = (m.st.pages p).index →
    x < m.iSize (m.st.pvds v).bk →
      (m.writeFileAsync pgs).byte (m.st.pvds v).bk x = (m.st.pages p).content (inPage x)
  others {x : ℕ} : (∀ p ∈ pgs, x / pageSize ≠ (m.st.pages p).index) →
    (m.writeFileAsync pgs).byte (m.st.pvds v).bk x = m.byte (m.st.pvds v).bk x

/-- The lower file has the content of a page already, as far as it belongs to the file. -/
def UpToDate (m : Mount) (d : DevId) (p : PageId) : Prop :=
  ∀ x, x / pageSize = (m.st.pages p).index → x < m.iSize d →
    m.byte d x = (m.st.pages p).content (inPage x)

/-- The pages that no request contains are the ends of the runs that are too long. -/
lemma exists_request_iff (hn : pgs.Nodup) {j : ℕ} (hj : j < pgs.length) :
    (∃ r ∈ m.st.requests pgs, pgs.get ⟨j, hj⟩ ∈ r) ↔
      ¬ Lost (m.st.indices pgs) (pgs.length - 1) j := by
  rw [mem_requests_iff, ← exists_inRequest_iff hj]
  refine exists_congr fun i => and_congr_right fun hi => ?_
  constructor
  · rintro ⟨k, hreq, hk⟩
    have hkl := hreq.lt hi
    rw [List.getD_eq_getElem _ _ hkl] at hk
    obtain rfl : k = j := (hn.getElem_inj_iff).mp hk
    exact hreq
  · intro hreq
    exact ⟨j, hreq, List.getD_eq_getElem _ _ hj⟩

/-- What the lower file holds of a page of the batch. -/
lemma byte_writeFileAsync (hv : ∀ p ∈ pgs, (m.st.pages p).pvd = some v)
    (hn : (pgs.map fun p => (m.st.pages p).index).Nodup) (hp : p ∈ pgs) {x : ℕ}
    (hx : x / pageSize = (m.st.pages p).index) :
    (m.writeFileAsync pgs).byte (m.st.pvds v).bk x =
      open scoped Classical in
      if ∃ r ∈ m.st.requests pgs, p ∈ r then (m.st.pages p).content (inPage x)
      else m.byte (m.st.pvds v).bk x := by
  -- the blocks that land there are those of the page
  have hblock : ∀ b ∈ m.st.writeMerged pgs, ((m.st.pvds v).bk, x / pageSize) = (b.dev, b.off) →
      b.data = (m.st.pages p).content ∧ ∃ r ∈ m.st.requests pgs, p ∈ r := by
    intro b hb ha
    obtain ⟨r, hr, q, hq, rfl⟩ := (mem_writeMerged hv).mp hb
    have hidx : (m.st.pages p).index = (m.st.pages q).index := hx.symm.trans (Prod.mk.inj ha).2
    obtain rfl := List.inj_on_of_nodup_map hn hp (mem_of_mem_request hr hq) hidx
    exact ⟨rfl, r, hr, hq⟩
  simp only [byte, disk_writeFileAsync]
  split_ifs with hr
  · obtain ⟨r, hr, hpr⟩ := hr
    have hmem := (mem_writeMerged (b := ⟨(m.st.pvds v).bk, (m.st.pages p).index,
      (m.st.pages p).content⟩) hv).mpr ⟨r, hr, p, hpr, rfl⟩
    rw [writeBlocks_written ⟨_, hmem, by rw [hx]⟩ fun b hb ha => (hblock b hb ha).1]
  · rw [writeBlocks_other fun b hb ha => hr (hblock b hb ha).2]

/-- It does so exactly when all pages that are written lie in the file in full, and the pages that
are lost at the end of a long run are up to date. -/
theorem keepsFile_iff (m : Mount) (v : PvdId) (pgs : List PageId)
    (hv : ∀ p ∈ pgs, (m.st.pages p).pvd = some v)
    (hn : (pgs.map fun p => (m.st.pages p).index).Nodup) :
    KeepsFile m v pgs ↔ ∀ (j : ℕ) (hj : j < pgs.length),
      (¬ Lost (m.st.indices pgs) (pgs.length - 1) j →
        ((m.st.pages (pgs.get ⟨j, hj⟩)).index + 1) * pageSize ≤ m.iSize (m.st.pvds v).bk) ∧
      (Lost (m.st.indices pgs) (pgs.length - 1) j →
        m.UpToDate (m.st.pvds v).bk (pgs.get ⟨j, hj⟩)) := by
  have hnd : pgs.Nodup := hn.of_map _
  constructor
  · intro h j hj
    have hp := List.get_mem pgs ⟨j, hj⟩
    constructor
    · intro hlost
      obtain ⟨r, hr, hpr⟩ := (exists_request_iff hnd hj).mpr hlost
      have hle := ((iSize_writeFileAsync_le hv).mp h.size.le).2
      have hb := (mem_writeMerged hv).mpr ⟨r, hr, _, hpr, rfl⟩
      have hend := hle _ hb
      exact hend
    · intro hlost x hx hlt
      have hbyte := h.bytes hp hx hlt
      rwa [byte_writeFileAsync hv hn hp hx, if_neg] at hbyte
      exact fun hr => (exists_request_iff hnd hj).mp hr hlost
  · intro h
    constructor
    · apply le_antisymm
      · refine (iSize_writeFileAsync_le hv).mpr ⟨le_rfl, fun b hb => ?_⟩
        obtain ⟨r, hr, p, hpr, rfl⟩ := (mem_writeMerged hv).mp hb
        obtain ⟨j, hj, rfl⟩ := List.getElem_of_mem (mem_of_mem_request hr hpr)
        exact (h j hj).1 ((exists_request_iff hnd hj).mp ⟨r, hr, hpr⟩)
      · exact ((iSize_writeFileAsync_le hv).mp le_rfl).1
    · intro p x hp hx hlt
      rw [byte_writeFileAsync hv hn hp hx]
      split_ifs with hr
      · rfl
      · obtain ⟨j, hj, rfl⟩ := List.getElem_of_mem hp
        have hlost := not_not.mp fun hl => hr ((exists_request_iff hnd hj).mpr hl)
        exact (h j hj).2 hlost x hx hlt
    · intro x hx
      simp only [byte, disk_writeFileAsync]
      rw [writeBlocks_other fun b hb ha => ?_]
      obtain ⟨r, hr, p, hpr, rfl⟩ := (mem_writeMerged hv).mp hb
      exact hx p (mem_of_mem_request hr hpr) (Prod.mk.inj ha).2

/-- Pages of a file are cached. -/
def cachedPages (size : ℕ) : Mount where
  st :=
    let s := initParams byteEnv byteWorld
    { s with pages := fun p => { s.pages p with index := p, pvd := some 0, content := fun _ => 1 } }
  iSize _ := size

/-- Three whole pages, two of them in one request. -/
theorem keepsFile_cachedPages : KeepsFile (cachedPages (6 * pageSize)) 0 [0, 1, 5] ∧
    ((cachedPages (6 * pageSize)).st.request [0, 1, 5] 0).length = 2 := by
  have hwhole : ∀ p ∈ [0, 1, 5], (p + 1) * pageSize ≤ 6 * pageSize := by decide
  refine ⟨(keepsFile_iff _ 0 [0, 1, 5] (fun _ _ => rfl) (by decide)).mpr fun j hj => ?_, by decide⟩
  have hlt : j < 3 := hj
  have hlost : ¬ Lost ((cachedPages (6 * pageSize)).st.indices [0, 1, 5]) 2 j := by
    rintro ⟨hrun, -⟩
    have := (lt_runLen.mp hrun).1
    omega
  exact ⟨fun _ => hwhole _ (List.get_mem [0, 1, 5] ⟨j, hj⟩), fun hl => absurd hl hlost⟩

/-- A file of 100 bytes grows to a page. -/
theorem write_back_grows_file :
    ¬ ∀ (m : Mount) (v : PvdId) (pgs : List PageId), (∀ p ∈ pgs, (m.st.pages p).pvd = some v) →
      (pgs.map fun p => (m.st.pages p).index).Nodup →
      (∀ p ∈ pgs, (m.st.pages p).index * pageSize < m.iSize (m.st.pvds v).bk) →
        KeepsFile m v pgs := by
  intro hall
  have h := hall (cachedPages 100) 0 [0] (fun _ _ => rfl) (by simp) (by
    intro p hp
    obtain rfl := List.mem_singleton.mp hp
    decide)
  have hsize : ((cachedPages 100).writeFileAsync [0]).iSize 0 = pageSize := by decide +kernel
  exact absurd (h.size.symm.trans hsize) (by decide)

end Mount

end FastMap
