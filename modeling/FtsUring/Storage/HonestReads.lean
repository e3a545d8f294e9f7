import FtsUring.Storage.PoolInvariant
import FtsUring.Storage.PoolTransparency

/-!
# Failed reads

A page that cannot be read in full is formatted as an empty page, also when it lies in the data file. The
ghost map of a run says which image each page in the pool would have if every load had returned the stored
bytes; the frames hold these images, and thus only such images are written, exactly when every read of a page
in the file is complete.
-/

namespace FtsUring

open Foundation

/-- Bytes of the data file change into those of frames that hold their page, and no read is made. -/
structure WritesOnlyFrames (bpm : BufferPoolManager) (before after : Host) : Prop where
  reads : after.pageReads = before.pageReads
  length : before.dataFile.length ≤ after.dataFile.length
  bytes : ∀ offset < before.dataFile.length, after.dataFile[offset]? = before.dataFile[offset]? ∨
    ∃ i, (bpm.frame i).pageId ≠ invalidPageId ∧ (bpm.frame i).pageId * pageSize ≤ offset ∧
      offset < (bpm.frame i).pageId * pageSize + pageSize ∧
      after.dataFile[offset]? = (bpm.frame i).pageData.bytes[offset - (bpm.frame i).pageId * pageSize]?

/-! ## Writes -/

namespace WritesOnlyFrames

variable {bpm bpm' : BufferPoolManager} {before mid after : Host}

/-- Nothing is written. -/
theorem of_dataFile (hreads : after.pageReads = before.pageReads) (hfile : after.dataFile = before.dataFile) :
    WritesOnlyFrames bpm before after :=
  ⟨hreads, hfile ▸ le_rfl, fun _ _ => .inl (by rw [hfile])⟩

/-- Two steps. -/
theorem trans (h : WritesOnlyFrames bpm before mid) (h' : WritesOnlyFrames bpm mid after) :
    WritesOnlyFrames bpm before after := by
  refine ⟨h'.reads.trans h.reads, h.length.trans h'.length, fun offset hoffset => ?_⟩
  obtain hsame | hframe := h'.bytes offset (hoffset.trans_le h.length)
  · rw [hsame]
    exact h.bytes offset hoffset
  · exact .inr hframe

/-- The frames matter with their pages and bytes only. -/
theorem of_keepsFrames (hkeeps : KeepsFrames bpm bpm') (h : WritesOnlyFrames bpm' before after) :
    WritesOnlyFrames bpm before after := by
  refine ⟨h.reads, h.length, fun offset hoffset => (h.bytes offset hoffset).imp id ?_⟩
  rintro ⟨i, hframe⟩
  rw [hkeeps.pageId, hkeeps.pageData] at hframe
  exact ⟨i, hframe⟩

/-- One write, complete or not. -/
theorem write (bpm : BufferPoolManager) {i : ℕ} (hi : (bpm.frame i).pageId ≠ invalidPageId) (host : Host) :
    WritesOnlyFrames bpm host
      (ftsVfsWriteSync host (bpm.frame i).pageData.bytes ((bpm.frame i).pageId * pageSize)).2 := by
  rw [ftsVfsWriteSync]
  cases (host.pageWrites.headD .full).transferred (bpm.frame i).pageData.bytes.length with
  | none => exact .of_dataFile rfl rfl
  | some moved =>
    have hsize := (bpm.frame i).pageData.length_bytes
    by_cases hempty : (bpm.frame i).pageData.bytes.take moved = []
    · refine .of_dataFile rfl ?_
      dsimp only
      rw [hempty, pwriteFile, if_pos rfl]
    · refine ⟨rfl, ?_, fun offset hoffset => ?_⟩
      · dsimp only
        rw [length_pwriteFile _ _ hempty]
        exact le_max_left _ _
      · dsimp only
        rw [getElem?_pwriteFile _ _ hempty]
        split_ifs with hwithin
        · have hmoved := hwithin.2
          rw [List.length_take] at hmoved
          refine .inr ⟨i, hi, hwithin.1, ?_, ?_⟩
          · rw [pageSize] at hmoved ⊢
            omega
          · rw [List.getElem?_take, if_pos (by omega)]
        · exact .inl rfl

/-- Flushing the log. -/
theorem flushWal (bpm : BufferPoolManager) (st : Storage) : WritesOnlyFrames bpm st.host st.flushWal.host := by
  obtain ⟨-, hfile, -, -, hlog⟩ := st.flushWal_spec
  exact .of_dataFile hlog.pageReads hfile

/-- Writing one page back. -/
theorem flushPage (st : Storage) (pageId : ℕ) :
    WritesOnlyFrames st.bpm st.host (bufferPoolFlushPage st pageId).2.host := by
  have hlog := flushWal st.bpm st
  rw [bufferPoolFlushPage]
  split_ifs with hinvalid
  · exact .of_dataFile rfl rfl
  cases hfound : st.bpm.frameIndex pageId with
  | none => exact .of_dataFile rfl rfl
  | some i =>
    obtain ⟨-, hpage⟩ := BufferPoolManager.frameIndex_some hfound
    have hwrite := write st.bpm (i := i) (hpage.trans_ne hinvalid) st.flushWal.host
    rw [hpage] at hwrite
    dsimp only
    split_ifs with hdirty hres
    · exact hlog.trans hwrite
    · exact hlog.trans hwrite
    · exact .of_dataFile rfl rfl

/-- A batch of writes. -/
theorem batch (bpm : BufferPoolManager) (maxEvents : ℕ) {queued : List ℕ}
    (hqueued : ∀ i ∈ queued, (bpm.frame i).pageId ≠ invalidPageId) (completed : List ℕ) (host : Host) :
    WritesOnlyFrames bpm host (queued.foldl (ftsVfsBatchComplete bpm maxEvents) (completed, host)).2 := by
  induction queued generalizing completed host with
  | nil => exact .of_dataFile rfl rfl
  | cons i queued ih =>
    have hwrite := write bpm (hqueued i List.mem_cons_self) host
    have hrest := fun completed' => ih (fun j hj => hqueued j (List.mem_cons_of_mem i hj)) completed'
      (ftsVfsWriteSync host (bpm.frame i).pageData.bytes ((bpm.frame i).pageId * pageSize)).2
    rw [List.foldl_cons, ftsVfsBatchComplete]
    dsimp only
    split_ifs
    · exact hwrite.trans (hrest _)
    · exact hwrite.trans (hrest _)

/-- Marking frames clean writes nothing. -/
theorem host_markClean_all (completed : List ℕ) (st : Storage) :
    (completed.foldl Storage.markClean st).host = st.host := by
  induction completed generalizing st with
  | nil => rfl
  | cons i completed ih => exact ih (st.markClean i)

/-- Submitting a batch. -/
theorem submitBatch (st : Storage) {queued : List ℕ}
    (hqueued : ∀ i ∈ queued, (st.bpm.frame i).pageId ≠ invalidPageId) :
    WritesOnlyFrames st.bpm st.host (st.submitBatch queued).host := by
  have hbatch := batch st.bpm vfsQueueSize hqueued [] st.host
  rw [Storage.submitBatch]
  cases hresult : ftsVfsBatchSubmitAndWait st.bpm queued vfsQueueSize st.host with
  | mk completed host =>
    rw [ftsVfsBatchSubmitAndWait] at hresult
    rw [hresult] at hbatch
    dsimp only
    rw [host_markClean_all]
    exact hbatch

/-- One frame of the flush loop. -/
theorem flushAllStep {queued : List ℕ} {st : Storage}
    (hqueued : ∀ i ∈ queued, (st.bpm.frame i).pageId ≠ invalidPageId) (hlength : queued.length < flushBatchLimit)
    (i : ℕ) :
    WritesOnlyFrames st.bpm st.host (flushAllStep (st, queued) i).1.host ∧
      ∀ j ∈ (FtsUring.flushAllStep (st, queued) i).2, (st.bpm.frame j).pageId ≠ invalidPageId := by
  rw [flushAllStep_eq hlength]
  split_ifs with hdirty hfull
  · have hall : ∀ j ∈ queued ++ [i], (st.bpm.frame j).pageId ≠ invalidPageId := by
      intro j hj
      rw [List.mem_append, List.mem_singleton] at hj
      obtain hj | rfl := hj
      · exact hqueued j hj
      · exact hdirty.1
    exact ⟨submitBatch st hall, fun j hj => absurd hj List.not_mem_nil⟩
  · refine ⟨.of_dataFile rfl rfl, fun j hj => ?_⟩
    rw [List.mem_append, List.mem_singleton] at hj
    obtain hj | rfl := hj
    · exact hqueued j hj
    · exact hdirty.1
  · exact ⟨.of_dataFile rfl rfl, hqueued⟩

/-- The flush loop. -/
theorem flushAllLoop (indices : List ℕ) {queued : List ℕ} {st : Storage}
    (hqueued : ∀ i ∈ queued, (st.bpm.frame i).pageId ≠ invalidPageId)
    (hlength : queued.length < flushBatchLimit) :
    WritesOnlyFrames st.bpm st.host (indices.foldl FtsUring.flushAllStep (st, queued)).1.host ∧
      ∀ i ∈ (indices.foldl FtsUring.flushAllStep (st, queued)).2, (st.bpm.frame i).pageId ≠ invalidPageId := by
  induction indices generalizing st queued with
  | nil => exact ⟨.of_dataFile rfl rfl, hqueued⟩
  | cons i indices ih =>
    obtain ⟨hkeeps, hlength'⟩ := KeepsFrames.flushAllStep st hlength i
    obtain ⟨hstep, hqueued'⟩ := flushAllStep hqueued hlength i
    have hpages : ∀ j ∈ (FtsUring.flushAllStep (st, queued) i).2,
        ((FtsUring.flushAllStep (st, queued) i).1.bpm.frame j).pageId ≠ invalidPageId := by
      intro j hj
      rw [hkeeps.pageId]
      exact hqueued' j hj
    obtain ⟨hrest, hleft⟩ := ih hpages hlength'
    refine ⟨hstep.trans (hrest.of_keepsFrames hkeeps), fun j hj => ?_⟩
    rw [← hkeeps.pageId]
    exact hleft j hj

/-- Flushing the whole pool. -/
theorem flushAll (st : Storage) : WritesOnlyFrames st.bpm st.host (bufferPoolFlushAll st).host := by
  have hframes : ∀ st : Storage, WritesOnlyFrames st.bpm st.host st.flushFrames.host := by
    intro st
    have hempty : ∀ i ∈ ([] : List ℕ), (st.bpm.frame i).pageId ≠ invalidPageId :=
      fun i hi => absurd hi List.not_mem_nil
    obtain ⟨hloop, hleft⟩ := flushAllLoop (List.range st.bpm.poolSize) hempty (by decide)
    have hkeeps := @KeepsFrames.flushAllLoop (List.range st.bpm.poolSize) st [] (by decide)
    simp only [Storage.flushFrames]
    split_ifs
    · refine hloop.trans ((submitBatch _ fun i hi => ?_).of_keepsFrames hkeeps)
      rw [hkeeps.pageId]
      exact hleft i hi
    · exact hloop
  have hlog := st.flushWal_spec.1
  rw [bufferPoolFlushAll]
  split_ifs
  · exact (flushWal st.bpm st).trans (hlog ▸ hframes st.flushWal)
  · exact hframes st

/-- Writing a victim back. -/
theorem writeVictim (st : Storage) (hand i : ℕ) : WritesOnlyFrames st.bpm st.host (st.writeVictim hand i).host := by
  rw [Storage.writeVictim]
  split_ifs
  · have hflush := flushPage { st with bpm := { st.bpm with clockHand := hand } } (st.bpm.frame i).pageId
    exact ⟨hflush.reads, hflush.length, hflush.bytes⟩
  · exact .of_dataFile rfl rfl

/-- A stored page that no frame holds stays as it is. -/
theorem diskPage_eq (h : WritesOnlyFrames bpm before after) {pageId : ℕ} (hstores : before.Stores pageId)
    (habsent : bpm.frameIndex pageId = none) : after.diskPage pageId = before.diskPage pageId := by
  have hslice : slice after.dataFile (pageId * pageSize) pageSize =
      slice before.dataFile (pageId * pageSize) pageSize := by
    apply List.ext_getElem?
    intro k
    rw [getElem?_slice, getElem?_slice]
    split_ifs with hk
    · rw [Host.Stores, Nat.succ_mul] at hstores
      obtain hsame | ⟨i, hi, hlow, hhigh, -⟩ := h.bytes (pageId * pageSize + k) (by omega)
      · exact hsame
      · have hpage : (bpm.frame i).pageId = pageId := by
          rw [pageSize] at hlow hhigh hk
          omega
        exact absurd hpage (BufferPoolManager.frameIndex_none habsent (bpm.lt_poolSize_of_frame hi))
    · rfl
  simp only [Host.diskPage, hslice]

end WritesOnlyFrames

/-! ## Fetching a page that is not in the pool -/

/-- What a read gives: the page on disk, if the read is complete. -/
theorem readPageOrFormat_fst (host : Host) (pageId : ℕ) :
    (readPageOrFormat host pageId).1 =
      if host.pageReads.headD .full = .full then host.diskPage pageId else slottedPageInit pageId .row := by
  rw [readPageOrFormat, ftsVfsReadSync]
  cases host.pageReads.headD .full with
  | error => rfl
  | short moved =>
    have hshort : ¬(slice host.dataFile (pageId * pageSize) (min moved (pageSize - 1))).length = pageSize := by
      rw [length_slice, pageSize]
      omega
    simp only [IoOutcome.transferred]
    rw [dif_neg hshort, if_neg fun hfull => IoOutcome.noConfusion hfull]
  | full =>
    simp only [IoOutcome.transferred, Host.diskPage, if_true]
    split_ifs <;> rfl

/-- No two frames hold the same page and the clock hand stands on a frame, if there is one. The number of
frames has 32 bits. -/
structure BufferPoolManager.Regular (bpm : BufferPoolManager) : Prop where
  distinct : bpm.DistinctPages
  hand : bpm.clockHand < bpm.poolSize ∨ bpm.poolSize = 0
  size : bpm.poolSize < 2 ^ 32

/-- The clock scan finds a frame, and its index is an `int`. -/
def BufferPoolManager.Evicts (bpm : BufferPoolManager) : Prop := ∃ i < 2 ^ 31, bpm.victim = some i

namespace BufferPoolManager.Regular

variable {bpm after : BufferPoolManager}

/-- A pool whose frames keep their pages. -/
theorem of_pageId (h : bpm.Regular) (hsize : after.poolSize = bpm.poolSize)
    (hhand : after.clockHand < bpm.poolSize ∨ bpm.poolSize = 0)
    (hpages : ∀ i, (after.frame i).pageId = (bpm.frame i).pageId) : after.Regular :=
  ⟨h.distinct.of_pageId hpages, by rwa [hsize], by rw [hsize]; exact h.size⟩

/-- Changes of dirty flags. -/
theorem keepsFrames (h : bpm.Regular) (hkeeps : KeepsFrames bpm after) : after.Regular :=
  h.of_pageId hkeeps.poolSize (by rw [hkeeps.clockHand]; exact h.hand) hkeeps.pageId

/-- Moving the clock hand. -/
theorem moveHand (h : bpm.Regular) {hand : ℕ} (hhand : hand < bpm.poolSize ∨ bpm.poolSize = 0) :
    ({ bpm with clockHand := hand } : BufferPoolManager).Regular :=
  ⟨h.distinct, hhand, h.size⟩

/-- The scan leaves the hand on a frame, and its victim lies in the pool. -/
theorem scanned (h : bpm.Regular) :
    (bpm.scanned.clockHand < bpm.poolSize ∨ bpm.poolSize = 0) ∧
      ∀ i, bpm.victim = some i → i < bpm.poolSize := by
  obtain hhand | hzero := h.hand
  · obtain ⟨hnext, hfound⟩ := clockScan_spec bpm.frames (clockAttempts bpm.poolSize) hhand
    exact ⟨.inl hnext, fun i hi => (hfound i hi).1⟩
  · refine ⟨.inr hzero, fun i hi => ?_⟩
    simp [victim, hzero, clockAttempts, clockScan] at hi

end BufferPoolManager.Regular

/-- A fetch pins the frame that holds the page. -/
theorem bufferPoolFetchPage_present {st : Storage} {pageId i : ℕ} (hfound : st.bpm.frameIndex pageId = some i) :
    bufferPoolFetchPage st pageId = (some i, { st with
      bpm := st.bpm.setFrame i
        { st.bpm.frame i with pinCount := ((st.bpm.frame i).pinCount + 1) % 2 ^ 32 } }) := by
  rw [bufferPoolFetchPage, hfound]

/-- A fetch of a page that is not in the pool returns NULL, perhaps after a victim was written back. -/
theorem bufferPoolFetchPage_not_evicts {st : Storage} (h : st.bpm.Regular) {pageId : ℕ}
    (habsent : st.bpm.frameIndex pageId = none) (hno : ¬st.bpm.Evicts) :
    (bufferPoolFetchPage st pageId).1 = none ∧
      KeepsFrames st.bpm.scanned (bufferPoolFetchPage st pageId).2.bpm ∧
      WritesOnlyFrames st.bpm st.host (bufferPoolFetchPage st pageId).2.host := by
  rw [bufferPoolFetchPage, habsent]
  cases hvictim : st.bpm.victim with
  | none =>
    rw [findVictimFrame_eq, hvictim]
    exact ⟨rfl, .refl _, .of_dataFile rfl rfl⟩
  | some i =>
    have hlarge : toCInt i < 0 := by
      by_contra hnonneg
      have hsize := (h.scanned.2 i hvictim).trans h.size
      exact hno ⟨i, (toCInt_nonneg hsize (not_lt.mp hnonneg)).1, hvictim⟩
    rw [findVictimFrame_of_some hvictim]
    dsimp only
    rw [if_pos hlarge]
    exact ⟨rfl, keepsFrames_writeVictim st _ i, .writeVictim st _ i⟩

/-- Or it loads the page into the victim. -/
theorem bufferPoolFetchPage_evicts {st : Storage} {pageId i : ℕ} (habsent : st.bpm.frameIndex pageId = none)
    (hsmall : i < 2 ^ 31) (hvictim : st.bpm.victim = some i) (hopen : 0 ≤ st.bpm.diskFd) :
    bufferPoolFetchPage st pageId =
      let written := st.writeVictim st.bpm.scanned.clockHand i
      let read := readPageOrFormat written.host pageId
      (some i, { written with bpm := written.bpm.setFrame i ⟨pageId, 1, false, read.1⟩, host := read.2 }) := by
  have hcint : toCInt i = i := if_pos hsmall
  have hnonneg : ¬toCInt i < 0 := by omega
  have hindex : (toCInt i).toNat = i := by rw [hcint, Int.toNat_natCast]
  have hdisk := (keepsFrames_writeVictim st st.bpm.scanned.clockHand i).diskFd
  rw [bufferPoolFetchPage, habsent, findVictimFrame_of_some hvictim]
  dsimp only
  rw [if_neg hnonneg, hindex, hdisk, if_pos hopen]

/-- What a fetch that loads a page has done: frame `i` holds the page, the other frames are as they were, and
the data file was written from frames only. The page is the stored one if the read was complete. -/
structure LoadsPage (st : Storage) (pageId i : ℕ) (page : Page) (after : Storage) : Prop where
  framePage : ∀ j, (after.bpm.frame j).pageId = if j = i then pageId else (st.bpm.frame j).pageId
  frameData : ∀ j, (after.bpm.frame j).pageData = if j = i then page else (st.bpm.frame j).pageData
  current : after.currentPage pageId = page
  regular : after.bpm.Regular
  diskFd : after.bpm.diskFd = st.bpm.diskFd
  written : ∃ host, WritesOnlyFrames st.bpm st.host host ∧ after.host.dataFile = host.dataFile
  stored : st.host.Stores pageId → page =
    if st.host.pageReads.headD .full = .full then st.host.diskPage pageId else slottedPageInit pageId .row

/-- A fetch of a page that is not in the pool loads it, if the clock scan finds a frame. -/
theorem loadsPage_bufferPoolFetchPage {st : Storage} (h : st.bpm.Regular) (hopen : 0 ≤ st.bpm.diskFd)
    {pageId : ℕ} (habsent : st.bpm.frameIndex pageId = none) (hevicts : st.bpm.Evicts) :
    ∃ i page, (bufferPoolFetchPage st pageId).1 = some i ∧
      LoadsPage st pageId i page (bufferPoolFetchPage st pageId).2 := by
  obtain ⟨i, hsmall, hvictim⟩ := hevicts
  rw [bufferPoolFetchPage_evicts habsent hsmall hvictim hopen]
  dsimp only
  have hkeeps := keepsFrames_writeVictim st st.bpm.scanned.clockHand i
  have hwrites := WritesOnlyFrames.writeVictim st st.bpm.scanned.clockHand i
  generalize st.writeVictim st.bpm.scanned.clockHand i = victim at hkeeps hwrites
  have hi : i < victim.bpm.poolSize := (h.scanned.2 i hvictim).trans_eq hkeeps.poolSize.symm
  have hpage := readPageOrFormat_fst victim.host pageId
  have hfile := readPageOrFormat_dataFile victim.host pageId
  rw [hwrites.reads] at hpage
  generalize readPageOrFormat victim.host pageId = read at hpage hfile
  have habsent' : victim.bpm.frameIndex pageId = none := hkeeps.frameIndex_none habsent
  have hframe := victim.bpm.frame_setFrame hi ⟨pageId, 1, false, read.1⟩
  have hregular : victim.bpm.Regular := (h.moveHand h.scanned.1).keepsFrames hkeeps
  have hfound : (victim.bpm.setFrame i ⟨pageId, 1, false, read.1⟩).frameIndex pageId = some i := by
    refine BufferPoolManager.frameIndex_eq_some ?_ ?_ fun j hj hne => ?_
    · rwa [BufferPoolManager.poolSize_setFrame]
    · rw [hframe, if_pos rfl]
    · rw [hframe, if_neg hne.symm]
      rw [BufferPoolManager.poolSize_setFrame] at hj
      exact BufferPoolManager.frameIndex_none habsent' hj
  refine ⟨i, read.1, rfl, fun j => ?_, fun j => ?_, ?_, ?_, hkeeps.diskFd, ⟨victim.host, hwrites, hfile⟩,
    fun hstores => ?_⟩
  · dsimp only
    rw [hframe, apply_ite Frame.pageId, hkeeps.pageId]
    simp only [eq_comm]
    rfl
  · dsimp only
    rw [hframe, apply_ite Frame.pageData, hkeeps.pageData]
    simp only [eq_comm]
    rfl
  · rw [Storage.currentPage, hfound]
    dsimp only
    rw [hframe, if_pos rfl]
  · refine ⟨hregular.distinct.setFrame_new i _ habsent', ?_, ?_⟩
    · rw [BufferPoolManager.poolSize_setFrame]
      exact hregular.hand
    · rw [BufferPoolManager.poolSize_setFrame]
      exact hregular.size
  · rw [hpage, hwrites.diskPage_eq hstores habsent]

/-! ## The images of the pages in the pool -/

/-- The storage and, for each page, the image that its frame would have if every load of a stored page had
returned that page. -/
structure HonestState where
  storage : Storage
  image : ℕ → Page

/-- The images are the pages as they are. -/
def HonestState.start (st : Storage) : HonestState := ⟨st, st.currentPage⟩

/-- The images after an operation. -/
def PoolOp.trueImages (op : PoolOp) (before after : Storage) (image : ℕ → Page) : ℕ → Page :=
  match op with
  | .fetch pageId =>
    match before.bpm.frameIndex pageId with
    | none =>
      Function.update image pageId
        (if (pageId + 1) * pageSize ≤ before.host.dataFile.length then before.host.diskPage pageId
        else after.currentPage pageId)
    | some _ => image
  | .modify pageId change =>
    match before.bpm.frameIndex pageId with
    | none => image
    | some i =>
      if 0 < (before.bpm.frame i).pinCount then Function.update image pageId (change (image pageId)) else image
  | _ => image

/-- One step. -/
def HonestState.step (state : HonestState) (step : PoolStep) : HonestState where
  storage := step.op.apply (step.storage state.storage)
  image := step.op.trueImages state.storage (step.op.apply (step.storage state.storage)) state.image

/-- A step invents no page: a fetch returns NULL and the page is not in the pool, or it returns a frame that
holds the page as it is stored or was in the pool; and the bytes of the data file change into those of the
images only. -/
structure PoolStep.Honest (step : PoolStep) (state : HonestState) : Prop where
  null : ∀ pageId, step.op = .fetch pageId →
    (bufferPoolFetchPage (step.storage state.storage) pageId).1 = none →
      (state.step step).storage.bpm.frameIndex pageId = none
  loaded : ∀ pageId i, step.op = .fetch pageId → state.storage.host.Stores pageId →
    (bufferPoolFetchPage (step.storage state.storage) pageId).1 = some i →
      ((state.step step).storage.bpm.frame i).pageId = pageId ∧
        ((state.step step).storage.bpm.frame i).pageData = state.storage.currentPage pageId
  written : ∀ offset < state.storage.host.dataFile.length,
    (state.step step).storage.host.dataFile[offset]? = state.storage.host.dataFile[offset]? ∨
      ∃ pageId, pageId * pageSize ≤ offset ∧ offset < pageId * pageSize + pageSize ∧
        (state.step step).storage.host.dataFile[offset]? =
          (state.image pageId).bytes[offset - pageId * pageSize]?

/-- Every step of the run is honest. -/
def HonestState.AlwaysHonest : HonestState → List PoolStep → Prop
  | _, [] => True
  | state, step :: rest => step.Honest state ∧ (state.step step).AlwaysHonest rest

/-- When a stored page is loaded, the read is complete or the page is an empty row page anyway. -/
def PoolStep.Faithful (step : PoolStep) (st : Storage) : Prop :=
  match step.op with
  | .fetch pageId =>
    st.bpm.frameIndex pageId = none → st.bpm.Evicts → st.host.Stores pageId →
      step.pageReads.headD .full = .full ∨ st.host.diskPage pageId = slottedPageInit pageId .row
  | _ => True

/-- Every load of a stored page is faithful. -/
def Storage.AlwaysFaithful (st : Storage) : List PoolStep → Prop
  | [] => True
  | step :: rest => step.Faithful st ∧ (step.op.apply (step.storage st)).AlwaysFaithful rest

/-- The frames hold the images of their pages. -/
structure HonestState.FramesHonest (state : HonestState) : Prop where
  regular : state.storage.bpm.Regular
  opened : 0 ≤ state.storage.bpm.diskFd
  image : ∀ i, (state.storage.bpm.frame i).pageId ≠ invalidPageId →
    (state.storage.bpm.frame i).pageData = state.image (state.storage.bpm.frame i).pageId

namespace HonestState.FramesHonest

variable {state : HonestState}

/-- The pages as they are. -/
theorem start {st : Storage} (h : st.bpm.Regular) (hopen : 0 ≤ st.bpm.diskFd) :
    (HonestState.start st).FramesHonest := by
  refine ⟨h, hopen, fun i hi => ?_⟩
  simp only [HonestState.start, Storage.currentPage, h.distinct.frameIndex_frame hi]

/-- What frames are written with is the image of their pages. -/
theorem written (h : state.FramesHonest) (before : Host) {after : Host}
    (hfile : before.dataFile = state.storage.host.dataFile)
    (hwrites : WritesOnlyFrames state.storage.bpm before after) :
    ∀ offset < state.storage.host.dataFile.length,
      after.dataFile[offset]? = state.storage.host.dataFile[offset]? ∨
        ∃ pageId, pageId * pageSize ≤ offset ∧ offset < pageId * pageSize + pageSize ∧
          after.dataFile[offset]? = (state.image pageId).bytes[offset - pageId * pageSize]? := by
  rw [← hfile]
  intro offset hoffset
  refine (hwrites.bytes offset hoffset).imp id ?_
  rintro ⟨i, hi, hlow, hhigh, hbyte⟩
  rw [h.image i hi] at hbyte
  exact ⟨_, hlow, hhigh, hbyte⟩

/-- Frames that keep their pages and bytes. -/
theorem of_samePage (h : state.FramesHonest) {after : Storage} (hregular : after.bpm.Regular)
    (hdisk : after.bpm.diskFd = state.storage.bpm.diskFd)
    (hframes : ∀ i, (state.storage.bpm.frame i).SamePage (after.bpm.frame i)) :
    FramesHonest ⟨after, state.image⟩ := by
  refine ⟨hregular, hdisk ▸ h.opened, fun i hi => ?_⟩
  obtain ⟨hpage, hdata⟩ := hframes i
  dsimp only at hi ⊢
  rw [hpage] at hi ⊢
  rw [hdata]
  exact h.image i hi

/-- A fetch of a page in the pool. -/
theorem fetch_present (h : state.FramesHonest) {step : PoolStep} {pageId i : ℕ} (hop : step.op = .fetch pageId)
    (hfound : state.storage.bpm.frameIndex pageId = some i) :
    step.Honest state ∧ (state.step step).FramesHonest := by
  obtain ⟨hi, hpage⟩ := BufferPoolManager.frameIndex_some hfound
  have hfetch := @bufferPoolFetchPage_present (step.storage state.storage) pageId i hfound
  have hframes := samePage_setFrame state.storage.bpm hi
    (((state.storage.bpm.frame i).pinCount + 1) % 2 ^ 32) (state.storage.bpm.frame i).isDirty
  have hstep : state.step step =
      ⟨(bufferPoolFetchPage (step.storage state.storage) pageId).2, state.image⟩ := by
    rw [HonestState.step, hop]
    simp only [PoolOp.apply, PoolOp.trueImages, hfound]
  rw [hfetch] at hstep
  constructor
  · constructor
    · intro other hother hnull
      obtain rfl : other = pageId := (PoolOp.fetch.inj (hop.symm.trans hother)).symm
      rw [hfetch] at hnull
      exact absurd hnull (Option.some_ne_none i)
    · intro other j hother _ hsome
      obtain rfl : other = pageId := (PoolOp.fetch.inj (hop.symm.trans hother)).symm
      rw [hfetch] at hsome
      obtain rfl := Option.some.inj hsome
      rw [hstep, Storage.currentPage, hfound]
      exact ⟨(hframes i).1.trans hpage, (hframes i).2⟩
    · rw [hstep]
      exact h.written (step.storage state.storage).host rfl (.of_dataFile rfl rfl)
  · rw [hstep]
    refine h.of_samePage (h.regular.of_pageId (BufferPoolManager.poolSize_setFrame _ _ _) h.regular.hand
      fun j => (hframes j).1) rfl hframes

/-- A fetch of a page outside the pool that gets no frame. -/
theorem fetch_not_evicts (h : state.FramesHonest) {step : PoolStep} {pageId : ℕ} (hop : step.op = .fetch pageId)
    (habsent : state.storage.bpm.frameIndex pageId = none) (hno : ¬state.storage.bpm.Evicts) :
    step.Honest state ∧ (state.step step).FramesHonest := by
  obtain ⟨hnull, hkeeps, hwrites⟩ :=
    @bufferPoolFetchPage_not_evicts (step.storage state.storage) h.regular pageId habsent hno
  have hstep : (state.step step).storage = (bufferPoolFetchPage (step.storage state.storage) pageId).2 := by
    rw [HonestState.step, hop]
    rfl
  have himage : ∀ i, (state.storage.bpm.frame i).pageId ≠ invalidPageId →
      (state.step step).image (state.storage.bpm.frame i).pageId =
        state.image (state.storage.bpm.frame i).pageId := by
    intro i hi
    have hne := BufferPoolManager.frameIndex_none habsent (state.storage.bpm.lt_poolSize_of_frame hi)
    simp only [HonestState.step, hop, PoolOp.trueImages, habsent, Function.update_of_ne hne]
  constructor
  · constructor
    · intro other hother _
      obtain rfl : other = pageId := (PoolOp.fetch.inj (hop.symm.trans hother)).symm
      rw [hstep]
      exact hkeeps.frameIndex_none habsent
    · intro other i hother _ hsome
      obtain rfl : other = pageId := (PoolOp.fetch.inj (hop.symm.trans hother)).symm
      rw [hnull] at hsome
      exact absurd hsome.symm (Option.some_ne_none i)
    · rw [hstep]
      exact h.written (step.storage state.storage).host rfl hwrites
  · refine ⟨?_, ?_, fun i hi => ?_⟩
    · rw [hstep]
      exact (h.regular.moveHand h.regular.scanned.1).keepsFrames hkeeps
    · rw [hstep, hkeeps.diskFd]
      exact h.opened
    · rw [hstep, hkeeps.pageId] at hi ⊢
      rw [hkeeps.pageData]
      exact (h.image i hi).trans (himage i hi).symm

/-- A load of a stored page is faithful if it gives the stored page. -/
theorem faithful_iff {step : PoolStep} {pageId i : ℕ} {page : Page} {after : Storage}
    (hop : step.op = .fetch pageId) (habsent : state.storage.bpm.frameIndex pageId = none)
    (hevicts : state.storage.bpm.Evicts)
    (hloads : LoadsPage (step.storage state.storage) pageId i page after) :
    step.Faithful state.storage ↔
      (state.storage.host.Stores pageId → page = state.storage.host.diskPage pageId) := by
  have hfaithful : step.Faithful state.storage ↔ (state.storage.host.Stores pageId →
      step.pageReads.headD .full = .full ∨
        state.storage.host.diskPage pageId = slottedPageInit pageId .row) := by
    rw [PoolStep.Faithful, hop]
    exact ⟨fun hload => hload habsent hevicts, fun hload _ _ => hload⟩
  rw [hfaithful]
  refine forall_congr' fun hstores => ?_
  have hpage : page = if step.pageReads.headD .full = .full then state.storage.host.diskPage pageId
      else slottedPageInit pageId .row := hloads.stored hstores
  rw [hpage]
  split_ifs with hfull
  · exact iff_of_true (.inl hfull) rfl
  · exact ⟨fun hformat => (hformat.resolve_left hfull).symm, fun hformat => .inr hformat.symm⟩

/-- A fetch that loads a page. -/
theorem fetch_evicts (h : state.FramesHonest) {step : PoolStep} {pageId : ℕ} (hop : step.op = .fetch pageId)
    (habsent : state.storage.bpm.frameIndex pageId = none) (hevicts : state.storage.bpm.Evicts) :
    (step.Honest state ↔ step.Faithful state.storage) ∧
      (step.Faithful state.storage → (state.step step).FramesHonest) := by
  obtain ⟨i, page, hanswer, hloads⟩ :=
    @loadsPage_bufferPoolFetchPage (step.storage state.storage) h.regular h.opened pageId habsent hevicts
  have hfaithful := faithful_iff hop habsent hevicts hloads
  have hstep : (state.step step).storage = (bufferPoolFetchPage (step.storage state.storage) pageId).2 := by
    rw [HonestState.step, hop]
    rfl
  rw [← hstep] at hloads
  have himage : (state.step step).image = Function.update state.image pageId
      (if (pageId + 1) * pageSize ≤ state.storage.host.dataFile.length then state.storage.host.diskPage pageId
      else (state.step step).storage.currentPage pageId) := by
    simp only [HonestState.step, hop, PoolOp.trueImages, habsent]
  have hcurrent : state.storage.currentPage pageId = state.storage.host.diskPage pageId := by
    rw [Storage.currentPage, habsent]
  have hpage := hloads.framePage i
  have hdata := hloads.frameData i
  rw [if_pos rfl] at hpage hdata
  obtain ⟨host, hwrites, hfile⟩ := hloads.written
  refine ⟨⟨fun hhonest => ?_, fun hload => ⟨?_, ?_, ?_⟩⟩, fun hload =>
    ⟨hloads.regular, h.opened.trans_eq hloads.diskFd.symm, ?_⟩⟩
  · refine hfaithful.mpr fun hstores => ?_
    rw [← hcurrent, ← (hhonest.loaded pageId i hop hstores hanswer).2, hdata]
  · intro other hother hnull
    obtain rfl : other = pageId := (PoolOp.fetch.inj (hop.symm.trans hother)).symm
    exact absurd (hanswer.symm.trans hnull) (Option.some_ne_none i)
  · intro other j hother hstores hsome
    obtain rfl : other = pageId := (PoolOp.fetch.inj (hop.symm.trans hother)).symm
    obtain rfl := Option.some.inj (hanswer.symm.trans hsome)
    exact ⟨hpage, hdata.trans ((hfaithful.mp hload hstores).trans hcurrent.symm)⟩
  · rw [hfile]
    exact h.written (step.storage state.storage).host rfl hwrites
  · intro j hj
    rw [himage, hloads.current]
    rw [hloads.framePage] at hj ⊢
    rw [hloads.frameData]
    split_ifs at hj ⊢ with hij hstores
    · rw [Function.update_self]
      exact hfaithful.mp hload hstores
    · rw [Function.update_self]
    all_goals
      have hother : (state.storage.bpm.frame j).pageId ≠ pageId :=
        BufferPoolManager.frameIndex_none habsent (state.storage.bpm.lt_poolSize_of_frame hj)
      exact (h.image j hj).trans (Function.update_of_ne hother _ _).symm

/-- An operation that fetches nothing. -/
theorem honest_of_not_fetch (h : state.FramesHonest) {step : PoolStep} (hop : ∀ pageId, step.op ≠ .fetch pageId)
    (hwrites : WritesOnlyFrames state.storage.bpm (step.storage state.storage).host
      (state.step step).storage.host) : step.Honest state :=
  ⟨fun pageId hfetch => absurd hfetch (hop pageId), fun pageId _ hfetch => absurd hfetch (hop pageId),
    h.written (step.storage state.storage).host rfl hwrites⟩

/-- An unpin. -/
theorem unpin (h : state.FramesHonest) {step : PoolStep} {pageId : ℕ} {isDirty : Bool} {hint : BufferPoolHint}
    (hop : step.op = .unpin pageId isDirty hint) : step.Honest state ∧ (state.step step).FramesHonest := by
  have hstep : state.step step =
      ⟨bufferPoolUnpinPage (step.storage state.storage) pageId isDirty hint, state.image⟩ := by
    rw [HonestState.step, hop]
    rfl
  have hunpin : (bufferPoolUnpinPage (step.storage state.storage) pageId isDirty hint).host =
        (step.storage state.storage).host ∧
      (bufferPoolUnpinPage (step.storage state.storage) pageId isDirty hint).bpm.Regular ∧
      (bufferPoolUnpinPage (step.storage state.storage) pageId isDirty hint).bpm.diskFd =
        state.storage.bpm.diskFd ∧
      ∀ i, (state.storage.bpm.frame i).SamePage
        ((bufferPoolUnpinPage (step.storage state.storage) pageId isDirty hint).bpm.frame i) := by
    rw [bufferPoolUnpinPage]
    cases hfound : (step.storage state.storage).bpm.frameIndex pageId with
    | none => exact ⟨rfl, h.regular, rfl, fun _ => ⟨rfl, rfl⟩⟩
    | some i =>
      obtain ⟨hi, -⟩ := BufferPoolManager.frameIndex_some hfound
      have hframes := samePage_setFrame state.storage.bpm hi ((state.storage.bpm.frame i).pinCount - 1)
        ((state.storage.bpm.frame i).isDirty || isDirty)
      have hsize := state.storage.bpm.poolSize_setFrame i { state.storage.bpm.frame i with
        pinCount := (state.storage.bpm.frame i).pinCount - 1
        isDirty := (state.storage.bpm.frame i).isDirty || isDirty }
      dsimp only
      split_ifs with hhint
      · exact ⟨rfl, h.regular.of_pageId hsize (.inl hi) fun j => (hframes j).1, rfl, hframes⟩
      · exact ⟨rfl, h.regular.of_pageId hsize h.regular.hand fun j => (hframes j).1, rfl, hframes⟩
  obtain ⟨hhost, hregular, hdisk, hframes⟩ := hunpin
  refine ⟨h.honest_of_not_fetch (fun other hother => ?_) ?_, ?_⟩
  · rw [hop] at hother
    exact PoolOp.noConfusion hother
  · rw [hstep]
    exact .of_dataFile (congrArg Host.pageReads hhost) (congrArg Host.dataFile hhost)
  · rw [hstep]
    exact h.of_samePage hregular hdisk hframes

/-- A change of a page. -/
theorem modify (h : state.FramesHonest) {step : PoolStep} {pageId : ℕ} {change : Page → Page}
    (hop : step.op = .modify pageId change) : step.Honest state ∧ (state.step step).FramesHonest := by
  have hnone : ∀ other, step.op ≠ .fetch other := by
    intro other hother
    rw [hop] at hother
    exact PoolOp.noConfusion hother
  have hstep : state.step step = ⟨modifyPinnedPage (step.storage state.storage) pageId change,
      PoolOp.trueImages (.modify pageId change) state.storage
        (modifyPinnedPage (step.storage state.storage) pageId change) state.image⟩ := by
    rw [HonestState.step, hop]
    rfl
  simp only [PoolOp.trueImages, modifyPinnedPage] at hstep
  cases hfound : state.storage.bpm.frameIndex pageId with
  | none =>
    have hfound' : (step.storage state.storage).bpm.frameIndex pageId = none := hfound
    rw [hfound, hfound'] at hstep
    refine ⟨h.honest_of_not_fetch hnone ?_, ?_⟩
    · rw [hstep]
      exact .of_dataFile rfl rfl
    · rw [hstep]
      exact ⟨h.regular, h.opened, h.image⟩
  | some i =>
    obtain ⟨hi, hpage⟩ := BufferPoolManager.frameIndex_some hfound
    have hfound' : (step.storage state.storage).bpm.frameIndex pageId = some i := hfound
    rw [hfound, hfound'] at hstep
    dsimp only at hstep
    have hpins : (step.storage state.storage).bpm.frame i = state.storage.bpm.frame i := rfl
    rw [hpins] at hstep
    split_ifs at hstep with hpinned
    · refine ⟨h.honest_of_not_fetch hnone ?_, ?_⟩
      · rw [hstep]
        exact .of_dataFile rfl rfl
      · have hframe := state.storage.bpm.frame_setFrame hi
          { state.storage.bpm.frame i with pageData := change (state.storage.bpm.frame i).pageData }
        rw [hstep]
        refine ⟨h.regular.of_pageId (BufferPoolManager.poolSize_setFrame _ _ _) h.regular.hand fun j => ?_,
          h.opened, fun j hj => ?_⟩
        · refine (congrArg Frame.pageId (hframe j)).trans ?_
          split_ifs with hij
          · rw [← hij]
          · rfl
        · have hframe' : ((step.storage state.storage).bpm.setFrame i
              { state.storage.bpm.frame i with pageData := change (state.storage.bpm.frame i).pageData }).frame j =
              _ := hframe j
          dsimp only at hj ⊢
          rw [hframe'] at hj ⊢
          split_ifs at hj ⊢ with hij
          · dsimp only at hj ⊢
            rw [h.image i hj, hpage, Function.update_self]
          · have hne : (state.storage.bpm.frame j).pageId ≠ pageId := fun hsame =>
              hij (h.regular.distinct j i hj (hsame.trans hpage.symm)).symm
            rw [Function.update_of_ne hne]
            exact h.image j hj
    · refine ⟨h.honest_of_not_fetch hnone ?_, ?_⟩
      · rw [hstep]
        exact .of_dataFile rfl rfl
      · rw [hstep]
        exact ⟨h.regular, h.opened, h.image⟩

/-- A flush of one page. -/
theorem flushPage (h : state.FramesHonest) {step : PoolStep} {pageId : ℕ} (hop : step.op = .flushPage pageId) :
    step.Honest state ∧ (state.step step).FramesHonest := by
  have hkeeps := KeepsFrames.flushPage (step.storage state.storage) pageId
  have hwrites := WritesOnlyFrames.flushPage (step.storage state.storage) pageId
  have hstep : state.step step = ⟨(bufferPoolFlushPage (step.storage state.storage) pageId).2, state.image⟩ := by
    rw [HonestState.step, hop]
    rfl
  refine ⟨h.honest_of_not_fetch (fun other hother => ?_) ?_, ?_⟩
  · rw [hop] at hother
    exact PoolOp.noConfusion hother
  · rw [hstep]
    exact hwrites
  · rw [hstep]
    exact h.of_samePage (h.regular.keepsFrames hkeeps) hkeeps.diskFd fun i => ⟨hkeeps.pageId i, hkeeps.pageData i⟩

/-- A flush of the whole pool. -/
theorem flushAll (h : state.FramesHonest) {step : PoolStep} (hop : step.op = .flushAll) :
    step.Honest state ∧ (state.step step).FramesHonest := by
  have hkeeps := KeepsFrames.flushAll (step.storage state.storage)
  have hwrites := WritesOnlyFrames.flushAll (step.storage state.storage)
  have hstep : state.step step = ⟨bufferPoolFlushAll (step.storage state.storage), state.image⟩ := by
    rw [HonestState.step, hop]
    rfl
  refine ⟨h.honest_of_not_fetch (fun other hother => ?_) ?_, ?_⟩
  · rw [hop] at hother
    exact PoolOp.noConfusion hother
  · rw [hstep]
    exact hwrites
  · rw [hstep]
    exact h.of_samePage (h.regular.keepsFrames hkeeps) hkeeps.diskFd fun i => ⟨hkeeps.pageId i, hkeeps.pageData i⟩

/-- One step: it is honest exactly if it is faithful, and then the frames still hold the images. -/
theorem step (h : state.FramesHonest) (step : PoolStep) :
    (step.Honest state ↔ step.Faithful state.storage) ∧
      (step.Faithful state.storage → (state.step step).FramesHonest) := by
  have hdone : ∀ hfaithful : step.Faithful state.storage, step.Honest state ∧ (state.step step).FramesHonest →
      (step.Honest state ↔ step.Faithful state.storage) ∧
        (step.Faithful state.storage → (state.step step).FramesHonest) :=
    fun hfaithful hkept => ⟨iff_of_true hkept.1 hfaithful, fun _ => hkept.2⟩
  cases hop : step.op with
  | fetch pageId =>
    cases hfound : state.storage.bpm.frameIndex pageId with
    | some i =>
      refine hdone ?_ (h.fetch_present hop hfound)
      rw [PoolStep.Faithful, hop]
      exact fun habsent => absurd (hfound.symm.trans habsent) (Option.some_ne_none i)
    | none =>
      by_cases hevicts : state.storage.bpm.Evicts
      · exact h.fetch_evicts hop hfound hevicts
      · refine hdone ?_ (h.fetch_not_evicts hop hfound hevicts)
        rw [PoolStep.Faithful, hop]
        exact fun _ hyes => absurd hyes hevicts
  | modify pageId change => exact hdone (by rw [PoolStep.Faithful, hop]; trivial) (h.modify hop)
  | unpin pageId isDirty hint => exact hdone (by rw [PoolStep.Faithful, hop]; trivial) (h.unpin hop)
  | flushPage pageId => exact hdone (by rw [PoolStep.Faithful, hop]; trivial) (h.flushPage hop)
  | flushAll => exact hdone (by rw [PoolStep.Faithful, hop]; trivial) (h.flushAll hop)

/-- A run is honest exactly if it is faithful. -/
theorem alwaysHonest_iff (h : state.FramesHonest) (steps : List PoolStep) :
    state.AlwaysHonest steps ↔ state.storage.AlwaysFaithful steps := by
  induction steps generalizing state with
  | nil => exact Iff.rfl
  | cons step steps ih =>
    obtain ⟨hiff, hkept⟩ := h.step step
    rw [HonestState.AlwaysHonest, Storage.AlwaysFaithful, hiff]
    exact and_congr_right fun hfaithful => ih (hkept hfaithful)

end HonestState.FramesHonest

/-! ## Runs -/

/-- Whatever is fetched, changed, unpinned and flushed and whatever the disk does, no page is invented at any
step exactly if every load of a stored page is faithful. -/
theorem poolRun_honest_iff {st : Storage} (h : st.bpm.Regular) (hopen : 0 ≤ st.bpm.diskFd)
    (steps : List PoolStep) : (HonestState.start st).AlwaysHonest steps ↔ st.AlwaysFaithful steps :=
  (HonestState.FramesHonest.start h hopen).alwaysHonest_iff steps

/-- A pool of one empty frame over a data file with one page of zero bytes. -/
def zeroPageStorage : Storage := bufferPoolInit 3 none { Host.empty with dataFile := Page.zero.bytes } 1

/-- Page 0 is fetched while the disk fails, unpinned dirty and flushed. -/
def failedReadRun : List PoolStep :=
  [⟨.fetch 0, [.error], [], []⟩, .ofOp (.unpin 0 true .normal), .ofOp (.flushPage 0)]

/-- The new pool is regular. -/
theorem regular_zeroPageStorage : zeroPageStorage.bpm.Regular := by
  have hwellFormed := @BufferPoolManager.wellFormed_replicate 3 1 (by decide)
  exact ⟨hwellFormed.distinct, hwellFormed.hand, hwellFormed.size⟩

/-- The run on the page of zero bytes. -/
theorem poolRun_honest_iff_failedRead :
    (HonestState.start zeroPageStorage).AlwaysHonest failedReadRun ↔
      zeroPageStorage.AlwaysFaithful failedReadRun :=
  poolRun_honest_iff regular_zeroPageStorage (by decide) failedReadRun

/-- The fetch returns an empty row page in place of the stored zero bytes. -/
theorem poolRun_invents_page : ¬(HonestState.start zeroPageStorage).AlwaysHonest failedReadRun := by
  have hframes := HonestState.FramesHonest.start regular_zeroPageStorage (by decide)
  have hfile : zeroPageStorage.host.dataFile = Page.zero.bytes := rfl
  have hholds : zeroPageStorage.host.HoldsPage 0 Page.zero := by
    rw [Host.HoldsPage, hfile, slice, Nat.zero_mul, List.drop_zero]
    exact List.take_of_length_le Page.zero.size.le
  obtain ⟨hstores, hdisk⟩ := hholds.diskPage_eq
  rintro ⟨hhonest, -⟩
  have hfaithful := (hframes.step _).1.mp hhonest
  obtain hfull | hformat := hfaithful rfl ⟨0, by decide, rfl⟩ hstores
  · exact IoOutcome.noConfusion hfull
  · obtain ⟨-, -, hlower, -⟩ := slottedPageInit_fields 0 .row
    have hpage : slottedPageInit 0 .row = Page.zero := hformat.symm.trans hdisk
    rw [hpage, Page.freeSpaceLower, Page.field_zero] at hlower
    exact absurd hlower (by decide)

end FtsUring
