import FtsUring.Storage.Uring

/-!
# The fallback backend

Without io_uring the backend calls `pread` and `pwrite`. The writes of a batch are made at once and their results are
kept until the batch is submitted; a write that failed is reported to the pool right away, which tries it once more.
So the frames become clean at other moments than over io_uring, and a failing disk sees other requests. After the
pool is flushed no difference is left: both backends have the same runs.
-/

namespace FtsUring

open Foundation

/-- `MAX_BATCH_EVENTS`. -/
def maxBatchEvents : ℕ := 1024

/-- The storage over the fallback backend. The context is the user data and the results of the batch, and the
operating system decides how each call comes out. -/
abbrev PwriteStorage : Type := VfsStorage (List (ℕ × ℤ)) IoOutcome

namespace Pwrite

/-- `pread` and `pwrite`. -/
def request (u : PwriteStorage) (request : VfsRequest) : VfsReply × PwriteStorage :=
  let outcome := u.choices.headD .full
  (vfsReply request outcome u.storage.host.dataFile,
    (u.setDataFile (vfsEffect request outcome u.storage.host.dataFile)).setChoices u.choices.tail)

/-- Write at once and keep the result, if there is room. -/
def ftsVfsBatchAddWrite (u : PwriteStorage) (data : List UInt8) (offset userData : ℕ) : ℤ × PwriteStorage :=
  let (reply, u) := request u (.write data offset (some userData))
  let status := if 0 ≤ reply.res then 0 else -1
  (status, if u.ctx.length < maxBatchEvents then u.setCtx (u.ctx ++ [(userData, status)]) else u)

/-- One result of a batch: its user data is collected if the write did not fail and there is room. -/
def collectResult (maxEvents : ℕ) (completed : List (Option ℕ)) (result : ℕ × ℤ) : List (Option ℕ) :=
  if 0 ≤ result.2 ∧ completed.length < maxEvents then completed ++ [some result.1] else completed

end Pwrite

/-- The fallback backend. -/
def pwriteVfs : VfsBackend (List (ℕ × ℤ)) IoOutcome where
  ftsVfsInit := []
  ftsVfsReadSync u count offset := some (Pwrite.request u (.read count offset))
  ftsVfsWriteSync u data offset :=
    let (reply, u) := Pwrite.request u (.write data offset none)
    some (reply.res, u)
  ftsVfsBatchBegin _ := []
  ftsVfsBatchAddWrite := Pwrite.ftsVfsBatchAddWrite
  ftsVfsBatchSubmitAndWait u maxEvents := some (u.ctx.foldl (Pwrite.collectResult maxEvents) [], u)

section Operations

variable {u : PwriteStorage}

/-- A single write. -/
theorem follows_pwrite (u : PwriteStorage) (data : List UInt8) (offset : ℕ) :
    Follows VfsStorage.storage u (fun u => pwriteVfs.ftsVfsWriteSync u data offset)
      (fun st => ((ftsVfsWriteSync st.host data offset).1,
        { st with host := (ftsVfsWriteSync st.host data offset).2 }))
      fun res res' u' => res = res' ∧ True ∧ u'.storage.bpm = u.storage.bpm where
  refines choices res result hresult := by
    cases hresult
    let after := u.setDataFile (vfsEffect (.write data offset none) (choices.headD .full) u.storage.host.dataFile)
    refine ⟨_, after, choices.tail, [], [choices.headD .full], rfl, ⟨rfl, trivial, rfl⟩, fun reads writes => ?_⟩
    rw [ftsVfsWriteSync_withOutcomes _ _ _ _ _ none]
    rfl
  realizes reads writes := by
    let request := VfsRequest.write data offset none
    let res := (vfsReply request (writes.headD .full) u.storage.host.dataFile).res
    let after := u.setDataFile (vfsEffect request (writes.headD .full) u.storage.host.dataFile)
    refine ⟨[writes.headD .full], res, res, after, reads, writes.tail, ⟨rfl, trivial, rfl⟩, ?_, fun more => rfl⟩
    rw [ftsVfsWriteSync_withOutcomes _ _ _ _ _ none]
    rfl

/-- A page is read. -/
theorem follows_pread (u : PwriteStorage) (pageId : ℕ) :
    Follows VfsStorage.storage u (fun u => pwriteVfs.readPageOrFormat u pageId)
      (fun st => ((readPageOrFormat st.host pageId).1, { st with host := (readPageOrFormat st.host pageId).2 }))
      fun page page' u' => page = page' ∧ True ∧ u'.storage.bpm = u.storage.bpm where
  refines choices page result hresult := by
    cases hresult
    refine ⟨_, u, choices.tail, [choices.headD .full], [], rfl, ⟨rfl, trivial, rfl⟩, fun reads writes => ?_⟩
    rw [readPageOrFormat_withOutcomes]
    rfl
  realizes reads writes := by
    let reply := vfsReply (.read pageSize (pageId * pageSize)) (reads.headD .full) u.storage.host.dataFile
    let page := VfsBackend.pageOfBytes pageId reply.bytes
    refine ⟨[reads.headD .full], page, page, u, reads.tail, writes, ⟨rfl, trivial, rfl⟩, ?_, fun more => rfl⟩
    rw [readPageOrFormat_withOutcomes]
    rfl

end Operations

/-! ## Flushing one frame after the other -/

/-- The page of the frame has to be written. -/
def BufferPoolManager.NeedsWrite (bpm : BufferPoolManager) (i : ℕ) : Prop :=
  (bpm.frame i).pageId ≠ invalidPageId ∧ (bpm.frame i).isDirty ∧ 0 ≤ bpm.diskFd

instance (bpm : BufferPoolManager) (i : ℕ) : Decidable (bpm.NeedsWrite i) :=
  inferInstanceAs (Decidable ((bpm.frame i).pageId ≠ invalidPageId ∧ (bpm.frame i).isDirty ∧ 0 ≤ bpm.diskFd))

/-- Write the page of a frame back at once if it is dirty. -/
def Storage.writeFrame (st : Storage) (i : ℕ) : Storage :=
  if st.bpm.NeedsWrite i then
    let result := ftsVfsWriteSync st.host (st.bpm.frame i).pageData.bytes ((st.bpm.frame i).pageId * pageSize)
    let st := { st with host := result.2 }
    if 0 ≤ result.1 then st.markClean i else st
  else st

/-- Writing the page of a frame leaves the other frames alone. -/
theorem Storage.frame_writeFrame (st : Storage) {i j : ℕ} (hij : i ≠ j) :
    (st.writeFrame i).bpm.frame j = st.bpm.frame j ∧ (st.writeFrame i).bpm.diskFd = st.bpm.diskFd := by
  rw [writeFrame]
  dsimp only
  split_ifs
  · exact ⟨BufferPoolManager.frame_setFrame_of_ne _ hij _, rfl⟩
  · exact ⟨rfl, rfl⟩
  · exact ⟨rfl, rfl⟩

/-- Writing the pages of frames does not change what the other frames need. -/
theorem Storage.needsWrite_foldl_writeFrame (st : Storage) {frames : List ℕ} {j : ℕ} (hj : j ∉ frames) :
    (frames.foldl writeFrame st).bpm.NeedsWrite j ↔ st.bpm.NeedsWrite j := by
  induction frames generalizing st with
  | nil => rfl
  | cons i frames ih =>
    obtain ⟨hframe, hdisk⟩ := st.frame_writeFrame fun hij : i = j => hj (hij ▸ List.mem_cons_self)
    rw [List.foldl_cons, ih _ fun hmem => hj (List.mem_cons_of_mem _ hmem), BufferPoolManager.NeedsWrite, hframe,
      hdisk, BufferPoolManager.NeedsWrite]

/-- Marking frames clean does not touch the files. -/
theorem Storage.foldl_markClean_host (st : Storage) (frames : List ℕ) (host : Host) :
    frames.foldl markClean { st with host } = { frames.foldl markClean st with host } := by
  induction frames generalizing st with
  | nil => rfl
  | cons i frames ih => exact ih (st.markClean i)

/-- One batch and then another one. -/
theorem Storage.afterBatch_append (st : Storage) (batch later : List (ℕ × IoOutcome)) :
    (st.afterBatch batch).afterBatch later = st.afterBatch (batch ++ later) := by
  have hkept := keepsFrames_afterBatch st batch
  have hlog : batchLog (st.afterBatch batch).bpm later = batchLog st.bpm later := by
    rw [batchLog, batchLog]
    exact List.map_congr_left fun entry _ => by rw [frameRequest, frameRequest, hkept.pageData, hkept.pageId]
  have hhost : (st.afterBatch batch).host = { st.host with
      dataFile := (vfsDevice.performAll (batchLog st.bpm batch) st.host.dataFile).2 } := by
    rw [afterBatch, foldl_markClean_host]
  have hsame : ∀ host, { st.afterBatch batch with host } = (written batch).foldl markClean { st with host } := by
    intro host
    rw [st.foldl_markClean_host (written batch) host, afterBatch]
    exact congrArg (fun st : Storage => { st with host }) (st.foldl_markClean_host (written batch) _)
  have hall : batchLog st.bpm (batch ++ later) = batchLog st.bpm batch ++ batchLog st.bpm later := List.map_append
  have hwritten : written (batch ++ later) = written batch ++ written later := by
    rw [written, List.filter_append, List.map_append, ← written, ← written]
  rw [afterBatch.eq_1 (st.afterBatch batch), hlog, hhost, afterBatch.eq_1 st (batch ++ later), hall,
    Device.performAll_append, hwritten, List.foldl_append, ← hsame]

/-- Writing the page of a frame is a batch of its own. -/
theorem Storage.writeFrame_withOutcomes (st : Storage) {i : ℕ} (hneeds : st.bpm.NeedsWrite i)
    (reads writes : List IoOutcome) :
    (st.withOutcomes reads writes).writeFrame i =
      (st.afterBatch [(i, writes.headD .full)]).withOutcomes reads writes.tail := by
  have hres := vfsReply_frameRequest st.bpm i (writes.headD .full) st.host.dataFile
  rw [frameRequest] at hres
  rw [writeFrame, bpm_withOutcomes, if_pos hneeds]
  simp only [ftsVfsWriteSync_withOutcomes st reads writes _ _ (some i)]
  rw [afterBatch, written_cons]
  by_cases hsucceeds : (writes.headD .full).succeeds
  · rw [if_pos (hres.mpr hsucceeds), if_pos hsucceeds]
    rfl
  · rw [if_neg fun h => hsucceeds (hres.mp h), if_neg hsucceeds]
    rfl

/-- The pages of frames that need it may be written one after the other or in a batch. -/
theorem Storage.foldl_writeFrame_withOutcomes (st : Storage) {queued : List ℕ}
    (hneeds : ∀ i ∈ queued, st.bpm.NeedsWrite i) (hnodup : queued.Nodup) (reads writes : List IoOutcome) :
    queued.foldl writeFrame (st.withOutcomes reads writes) =
      (st.afterBatch (batchOutcomes queued writes)).withOutcomes reads (writes.drop queued.length) := by
  induction queued generalizing st writes with
  | nil => rfl
  | cons i queued ih =>
    obtain ⟨hnew, hrest⟩ := List.nodup_cons.mp hnodup
    have hfirst := st.writeFrame_withOutcomes (hneeds i List.mem_cons_self) reads writes
    have hneeds' : ∀ j ∈ queued, (st.afterBatch [(i, writes.headD .full)]).bpm.NeedsWrite j := by
      intro j hj
      have hij : i ≠ j := fun hij => hnew (hij ▸ hj)
      obtain ⟨hframe, hdisk⟩ := (st.withOutcomes reads writes).frame_writeFrame hij
      rw [hfirst] at hframe hdisk
      obtain ⟨hpage, hdirty, hopen⟩ := hneeds j (List.mem_cons_of_mem _ hj)
      exact ⟨by rw [← bpm_withOutcomes, hframe]; exact hpage, by rw [← bpm_withOutcomes, hframe]; exact hdirty,
        hdisk.symm ▸ hopen⟩
    rw [List.foldl_cons, hfirst, ih _ hneeds' hrest, afterBatch_append, batchOutcomes, List.length_cons]
    rw [List.singleton_append, List.drop_tail]

/-- A batch may be written one frame after the other. -/
theorem Storage.submitBatch_eq_foldl (st : Storage) {queued : List ℕ} (hshort : queued.length ≤ vfsQueueSize)
    (hneeds : ∀ i ∈ queued, st.bpm.NeedsWrite i) (hnodup : queued.Nodup) :
    st.submitBatch queued = queued.foldl writeFrame st :=
  (submitBatch_withOutcomes st hshort st.host.pageReads st.host.pageWrites).trans
    (st.foldl_writeFrame_withOutcomes hneeds hnodup st.host.pageReads st.host.pageWrites).symm

/-- One frame of the flush loop. -/
theorem flushAllStep_needsWrite {st : Storage} {queued : List ℕ} (hbelow : queued.length < flushBatchLimit)
    (i : ℕ) :
    flushAllStep (st, queued) i =
      if st.bpm.NeedsWrite i then
        if flushBatchLimit ≤ (queued ++ [i]).length then (st.submitBatch (queued ++ [i]), [])
        else (st, queued ++ [i])
      else (st, queued) := flushAllStep_eq hbelow i

/-- The flush loop may write one frame after the other. -/
theorem Storage.foldl_flushAllStep_eq (st : Storage) {queued indices : List ℕ}
    (hbelow : queued.length < flushBatchLimit)
    (hneeds : ∀ i ∈ queued, st.bpm.NeedsWrite i) (hnodup : (queued ++ indices).Nodup) :
    (let result := indices.foldl flushAllStep (st, queued)
     if 0 < result.2.length then result.1.submitBatch result.2 else result.1) =
      indices.foldl writeFrame (queued.foldl writeFrame st) := by
  induction indices generalizing st queued with
  | nil =>
    rw [List.append_nil] at hnodup
    dsimp only [List.foldl_nil]
    split_ifs with hsome
    · exact st.submitBatch_eq_foldl (hbelow.le.trans (by decide)) hneeds hnodup
    · rw [List.eq_nil_of_length_eq_zero (by omega : queued.length = 0)]
      rfl
  | cons i rest ih =>
    have hlength : (queued ++ [i]).length = queued.length + 1 := by
      rw [List.length_append, List.length_singleton]
    have hassoc : queued ++ i :: rest = (queued ++ [i]) ++ rest := by
      rw [List.append_assoc, List.singleton_append]
    have hqueued : (queued ++ [i]).Nodup := (List.nodup_append.mp (hassoc ▸ hnodup)).1
    have hnew : i ∉ queued := fun hmem => (List.nodup_append.mp hqueued).2.2 i hmem i List.mem_cons_self rfl
    rw [List.foldl_cons, List.foldl_cons, flushAllStep_needsWrite hbelow]
    by_cases hwrite : st.bpm.NeedsWrite i
    · have hall : ∀ j ∈ queued ++ [i], st.bpm.NeedsWrite j := by
        intro j hj
        obtain hold | hi := List.mem_append.mp hj
        · exact hneeds j hold
        · exact List.mem_singleton.mp hi ▸ hwrite
      rw [if_pos hwrite]
      by_cases hfull : flushBatchLimit ≤ (queued ++ [i]).length
      · rw [if_pos hfull, st.submitBatch_eq_foldl (by rw [hlength]; exact (Nat.succ_le_of_lt hbelow).trans (by decide))
          hall hqueued]
        have hlater :=
          @ih ((queued ++ [i]).foldl writeFrame st) [] (by decide) (fun _ hmem => absurd hmem List.not_mem_nil)
          (List.nodup_append.mp (hassoc ▸ hnodup)).2.1
        rw [hlater, List.foldl_nil, List.foldl_append]
        rfl
      · rw [if_neg hfull, ih st (not_le.mp hfull) hall (hassoc ▸ hnodup), List.foldl_append]
        rfl
    · have hskip : (queued.foldl writeFrame st).writeFrame i = queued.foldl writeFrame st := by
        rw [writeFrame, if_neg fun h => hwrite ((st.needsWrite_foldl_writeFrame hnew).mp h)]
      have hless : (queued ++ rest).Nodup :=
        hnodup.sublist (List.Sublist.append_left (List.sublist_cons_self i rest) queued)
      rw [if_neg hwrite, ih st hbelow hneeds hless, hskip]

/-- The flush may write one frame after the other. -/
theorem Storage.flushFrames_eq (st : Storage) :
    st.flushFrames = (List.range st.bpm.poolSize).foldl writeFrame st :=
  @foldl_flushAllStep_eq st [] _ (by decide) (fun _ hmem => absurd hmem List.not_mem_nil) List.nodup_range

/-! ## Flushing over the fallback backend -/

namespace PwriteStorage

variable (u : PwriteStorage)

/-- The frames of the batch whose writes did not fail. -/
def pending : List ℕ := (u.ctx.filter fun result => 0 ≤ result.2).map Prod.fst

/-- The storage when these frames are marked clean. -/
def view : Storage := (pending u).foldl Storage.markClean u.storage

/-- The page of a frame is written. -/
def write (i : ℕ) (outcome : IoOutcome) : PwriteStorage :=
  u.setDataFile (vfsEffect (frameRequest u.storage.bpm i) outcome u.storage.host.dataFile)

/-- A first write that did not fail. -/
def wrote (i : ℕ) (outcome : IoOutcome) : PwriteStorage := (write u i outcome).setCtx (u.ctx ++ [(i, 0)])

/-- A second write, after the first one failed. -/
def retried (i : ℕ) (outcome : IoOutcome) : PwriteStorage :=
  let after := (write u i outcome).setCtx (u.ctx ++ [(i, -1)])
  if outcome.succeeds then after.setStorage (after.storage.markClean i) else after

end PwriteStorage

/-- The writes of a frame in the flush loop. -/
def pwriteFrame (submitted : ℕ) (u : PwriteStorage) (i : ℕ) : Option (ℕ × PwriteStorage) :=
  let frame := u.storage.bpm.frame i
  let added := pwriteVfs.ftsVfsBatchAddWrite u frame.pageData.bytes (frame.pageId * pageSize) i
  if added.1 = 0 then some (submitted + 1, added.2)
  else
    (pwriteVfs.ftsVfsWriteSync added.2 frame.pageData.bytes (frame.pageId * pageSize)).map fun result =>
      (submitted, if 0 ≤ result.1 then result.2.setStorage (result.2.storage.markClean i) else result.2)

/-- The end of a full batch. -/
def pwriteBoundary (submitted : ℕ) (u : PwriteStorage) : Option (ℕ × PwriteStorage) :=
  if flushBatchLimit ≤ submitted then (pwriteVfs.submitBatch u).map fun u => (0, pwriteVfs.beginBatch u)
  else some (submitted, u)

/-- The writes of a frame: a write that fails is tried again. -/
theorem pwriteFrame_eq {u : PwriteStorage} (hroom : u.ctx.length < maxBatchEvents) (submitted i : ℕ)
    (choices : List IoOutcome) :
    pwriteFrame submitted (u.setChoices choices) i =
      if (choices.headD .full).succeeds then
        some (submitted + 1, (PwriteStorage.wrote u i (choices.headD .full)).setChoices choices.tail)
      else
        some (submitted, (PwriteStorage.retried u i (choices.tail.headD .full)).setChoices choices.tail.tail) := by
  let status : ℤ :=
    if 0 ≤ (vfsReply (frameRequest u.storage.bpm i) (choices.headD .full) u.storage.host.dataFile).res
    then 0 else -1
  have hadded : pwriteVfs.ftsVfsBatchAddWrite (u.setChoices choices) (u.storage.bpm.frame i).pageData.bytes
      ((u.storage.bpm.frame i).pageId * pageSize) i =
      (status, ((PwriteStorage.write u i (choices.headD .full)).setCtx (u.ctx ++ [(i, status)])).setChoices
        choices.tail) :=
    congrArg (Prod.mk status) (if_pos hroom)
  have hfirst := vfsReply_frameRequest u.storage.bpm i (choices.headD .full) u.storage.host.dataFile
  rw [pwriteFrame, VfsStorage.storage_setChoices, hadded]
  by_cases hsucceeds : (choices.headD .full).succeeds
  · have hstatus : status = 0 := if_pos (hfirst.mpr hsucceeds)
    rw [hstatus, if_pos rfl, if_pos hsucceeds]
    rfl
  · have hstatus : status = -1 := if_neg fun h => hsucceeds (hfirst.mp h)
    have herror : choices.headD .full = .error := by
      cases houtcome : choices.headD .full with
      | error => rfl
      | short moved => exact absurd (by rw [houtcome]; rfl) hsucceeds
      | full => exact absurd (by rw [houtcome]; rfl) hsucceeds
    have hsecond := vfsReply_frameRequest u.storage.bpm i (choices.tail.headD .full) u.storage.host.dataFile
    rw [hstatus, if_neg (by decide : ¬(-1 : ℤ) = 0), if_neg hsucceeds, herror]
    by_cases hagain : (choices.tail.headD .full).succeeds
    · rw [PwriteStorage.retried, if_pos hagain]
      exact congrArg (fun after => some (submitted, after)) (if_pos (hsecond.mpr hagain))
    · rw [PwriteStorage.retried, if_neg hagain]
      exact congrArg (fun after => some (submitted, after)) (if_neg fun h => hagain (hsecond.mp h))

/-- Marking one more frame clean, before or after the others. -/
theorem Storage.foldl_markClean_markClean (st : Storage) (frames : List ℕ) (i : ℕ) :
    frames.foldl markClean (st.markClean i) = (frames.foldl markClean st).markClean i := by
  induction frames generalizing st with
  | nil => rfl
  | cons j frames ih => rw [List.foldl_cons, List.foldl_cons, st.markClean_comm, ih]

section Frames

variable {u : PwriteStorage}

/-- What the view shows has the same frames but for dirty flags. -/
theorem keepsFrames_view (u : PwriteStorage) : KeepsFrames u.storage.bpm (PwriteStorage.view u).bpm :=
  KeepsFrames.markClean_all _ _

/-- The view of the storage after a frame was written, with the frames that are marked clean already. -/
theorem afterBatch_view (u : PwriteStorage) (i : ℕ) (outcome : IoOutcome) :
    (PwriteStorage.view u).afterBatch [(i, outcome)] =
      (if outcome.succeeds then [i] else []).foldl Storage.markClean
        ((PwriteStorage.pending u).foldl Storage.markClean (PwriteStorage.write u i outcome).storage) := by
  have hkept := keepsFrames_view u
  have hrequest : frameRequest (PwriteStorage.view u).bpm i = frameRequest u.storage.bpm i := by
    rw [frameRequest, frameRequest, hkept.pageData, hkept.pageId]
  have hhost : (PwriteStorage.view u).host = u.storage.host := by
    rw [PwriteStorage.view]
    exact (congrArg Storage.host (u.storage.foldl_markClean_host (PwriteStorage.pending u) u.storage.host) :)
  have hwrite := u.storage.foldl_markClean_host (PwriteStorage.pending u) (PwriteStorage.write u i outcome).storage.host
  rw [Storage.afterBatch, written_cons, batchLog, List.map_singleton, hrequest, hhost]
  refine Eq.trans ?_ (congrArg (List.foldl Storage.markClean · _) hwrite.symm)
  rfl

/-- A first write that did not fail waits to be marked clean. -/
theorem view_wrote (u : PwriteStorage) (i : ℕ) {outcome : IoOutcome} (hsucceeds : outcome.succeeds) :
    PwriteStorage.view (PwriteStorage.wrote u i outcome) = (PwriteStorage.view u).afterBatch [(i, outcome)] ∧
      PwriteStorage.pending (PwriteStorage.wrote u i outcome) = PwriteStorage.pending u ++ [i] := by
  have hpending : PwriteStorage.pending (PwriteStorage.wrote u i outcome) = PwriteStorage.pending u ++ [i] := by
    rw [PwriteStorage.pending, PwriteStorage.wrote, VfsStorage.setCtx, List.filter_append, List.map_append]
    rfl
  refine ⟨?_, hpending⟩
  rw [afterBatch_view, if_pos hsucceeds, PwriteStorage.view, hpending, List.foldl_append]
  rfl

/-- A second write is marked clean at once. -/
theorem view_retried (u : PwriteStorage) (i : ℕ) (outcome : IoOutcome) :
    PwriteStorage.view (PwriteStorage.retried u i outcome) = (PwriteStorage.view u).afterBatch [(i, outcome)] ∧
      PwriteStorage.pending (PwriteStorage.retried u i outcome) = PwriteStorage.pending u ∧
        (PwriteStorage.retried u i outcome).ctx.length = u.ctx.length + 1 := by
  have hpending : ∀ after : PwriteStorage, after.ctx = u.ctx ++ [(i, -1)] →
      PwriteStorage.pending after = PwriteStorage.pending u := by
    intro after hctx
    rw [PwriteStorage.pending, hctx, List.filter_append, List.map_append]
    exact List.append_nil _
  rw [afterBatch_view, PwriteStorage.retried]
  by_cases hsucceeds : outcome.succeeds
  · rw [if_pos hsucceeds, if_pos hsucceeds]
    refine ⟨?_, hpending _ rfl, List.length_append⟩
    rw [PwriteStorage.view, hpending _ rfl]
    exact Storage.foldl_markClean_markClean _ _ _
  · rw [if_neg hsucceeds, if_neg hsucceeds]
    refine ⟨?_, hpending _ rfl, List.length_append⟩
    rw [PwriteStorage.view, hpending _ rfl]
    rfl

/-- What the view shows needs the same writes of the other frames. -/
theorem needsWrite_view {i : ℕ} (hnew : i ∉ PwriteStorage.pending u) :
    (PwriteStorage.view u).bpm.NeedsWrite i ↔ u.storage.bpm.NeedsWrite i := by
  have hother : ∀ (frames : List ℕ) (st : Storage), i ∉ frames →
      (frames.foldl Storage.markClean st).bpm.frame i = st.bpm.frame i := by
    intro frames
    induction frames with
    | nil => exact fun st _ => rfl
    | cons j frames ih =>
      intro st hmem
      rw [List.foldl_cons, ih _ fun h => hmem (List.mem_cons_of_mem _ h)]
      exact BufferPoolManager.frame_setFrame_of_ne _ (fun hij : j = i => hmem (hij ▸ List.mem_cons_self)) _
  rw [BufferPoolManager.NeedsWrite, BufferPoolManager.NeedsWrite, (keepsFrames_view u).diskFd, PwriteStorage.view,
    hother _ _ hnew]

/-- What the flush loop keeps: the count of the batch, and the room for its results. -/
structure PwriteFlushes (submitted : ℕ) (u : PwriteStorage) (room : ℕ) (frames : List ℕ) : Prop where
  count : submitted = (PwriteStorage.pending u).length
  room : u.ctx.length + room ≤ maxBatchEvents
  frames : ∀ i ∈ PwriteStorage.pending u, i ∈ frames

/-- The writes of a frame that needs it. -/
theorem follows_pwriteFrame {submitted room i : ℕ} {frames : List ℕ}
    (hflushes : PwriteFlushes submitted u (room + 1) frames)
    (hneeds : u.storage.bpm.NeedsWrite i) (hnew : i ∉ frames) :
    Follows PwriteStorage.view u (fun u => pwriteFrame submitted u i) (fun st => ((), st.writeFrame i))
      fun submitted' _ u' => PwriteFlushes submitted' u' room (i :: frames) ∧ submitted' ≤ submitted + 1 := by
  have hroom : u.ctx.length < maxBatchEvents := by
    have := hflushes.room
    omega
  have hview : (PwriteStorage.view u).bpm.NeedsWrite i :=
    (needsWrite_view fun hmem => hnew (hflushes.frames i hmem)).mpr hneeds
  have hwrote : ∀ outcome : IoOutcome, outcome.succeeds →
      PwriteFlushes (submitted + 1) (PwriteStorage.wrote u i outcome) room (i :: frames) := by
    intro outcome hsucceeds
    obtain ⟨-, hpending⟩ := view_wrote u i hsucceeds
    refine ⟨by rw [hpending, List.length_append, hflushes.count]; rfl, ?_, fun j hj => ?_⟩
    · have hlength : (PwriteStorage.wrote u i outcome).ctx.length = u.ctx.length + 1 := List.length_append
      have := hflushes.room
      omega
    · rw [hpending] at hj
      obtain hold | hi := List.mem_append.mp hj
      · exact List.mem_cons_of_mem _ (hflushes.frames j hold)
      · exact List.mem_singleton.mp hi ▸ List.mem_cons_self
  have hretried : ∀ outcome : IoOutcome,
      PwriteFlushes submitted (PwriteStorage.retried u i outcome) room (i :: frames) := by
    intro outcome
    obtain ⟨-, hpending, hlength⟩ := view_retried u i outcome
    refine ⟨by rw [hpending, hflushes.count], ?_, fun j hj => ?_⟩
    · have := hflushes.room
      omega
    · rw [hpending] at hj
      exact List.mem_cons_of_mem _ (hflushes.frames j hj)
  constructor
  · intro choices submitted' result hresult
    rw [pwriteFrame_eq hroom] at hresult
    by_cases hsucceeds : (choices.headD .full).succeeds
    · rw [if_pos hsucceeds] at hresult
      obtain ⟨rfl, rfl⟩ := Prod.mk.inj (Option.some.inj hresult)
      refine ⟨(), _, choices.tail, [], [choices.headD .full], rfl, ⟨hwrote _ hsucceeds, le_rfl⟩,
        fun reads writes => ?_⟩
      rw [(view_wrote u i hsucceeds).1, Storage.writeFrame_withOutcomes _ hview]
      rfl
    · rw [if_neg hsucceeds] at hresult
      obtain ⟨rfl, rfl⟩ := Prod.mk.inj (Option.some.inj hresult)
      refine ⟨(), _, choices.tail.tail, [], [choices.tail.headD .full], rfl, ⟨hretried _, Nat.le_succ _⟩,
        fun reads writes => ?_⟩
      rw [(view_retried u i _).1, Storage.writeFrame_withOutcomes _ hview]
      rfl
  · intro reads writes
    by_cases hsucceeds : (writes.headD .full).succeeds
    · refine ⟨[writes.headD .full], submitted + 1, (), PwriteStorage.wrote u i (writes.headD .full), reads,
        writes.tail, ⟨hwrote _ hsucceeds, le_rfl⟩, ?_, fun more => ?_⟩
      · rw [(view_wrote u i hsucceeds).1, Storage.writeFrame_withOutcomes _ hview]
      · rw [pwriteFrame_eq hroom]
        exact if_pos hsucceeds
    · refine ⟨[.error, writes.headD .full], submitted, (), PwriteStorage.retried u i (writes.headD .full), reads,
        writes.tail, ⟨hretried _, Nat.le_succ _⟩, ?_, fun more => ?_⟩
      · rw [(view_retried u i _).1, Storage.writeFrame_withOutcomes _ hview]
      · rw [pwriteFrame_eq hroom]
        rfl

/-- The user data that a batch collects. -/
theorem foldl_collectResult {maxEvents : ℕ} {results : List (ℕ × ℤ)} {completed : List (Option ℕ)}
    (hroom : completed.length + (results.filter fun result => 0 ≤ result.2).length ≤ maxEvents) :
    results.foldl (Pwrite.collectResult maxEvents) completed =
      completed ++ ((results.filter fun result => 0 ≤ result.2).map Prod.fst).map some := by
  induction results generalizing completed with
  | nil => exact (List.append_nil _).symm
  | cons result results ih =>
    rw [List.foldl_cons, Pwrite.collectResult]
    by_cases hres : 0 ≤ result.2
    · rw [List.filter_cons_of_pos (by simpa using hres)] at hroom ⊢
      rw [List.length_cons] at hroom
      rw [if_pos ⟨hres, by omega⟩, ih (by rw [List.length_append, List.length_singleton]; omega), List.append_assoc,
        List.map_cons, List.map_cons, List.singleton_append]
    · rw [List.filter_cons_of_neg (by simpa using hres)] at hroom ⊢
      rw [if_neg fun h => hres h.1, ih hroom]

/-- Submitting a batch leaves what the view shows. -/
theorem pwriteVfs_submitBatch (hshort : (PwriteStorage.pending u).length ≤ vfsQueueSize) (choices : List IoOutcome) :
    pwriteVfs.submitBatch (u.setChoices choices) =
      some ((u.setStorage (PwriteStorage.view u)).setChoices choices) := by
  rw [PwriteStorage.pending, List.length_map] at hshort
  have hcollected := @foldl_collectResult vfsQueueSize u.ctx [] (by rwa [List.length_nil, Nat.zero_add])
  rw [List.nil_append] at hcollected
  have hmarked := foldl_markCompleted_perm (List.Perm.refl ((PwriteStorage.pending u).map some)) u.storage
  change some ((u.setStorage ((u.ctx.foldl (Pwrite.collectResult vfsQueueSize) []).foldl VfsBackend.markCompleted
    u.storage)).setChoices choices) = _
  rw [hcollected]
  exact congrArg (fun st => some ((u.setStorage st).setChoices choices)) hmarked

/-- Marking frames clean again. -/
theorem Storage.foldl_markClean_self (st : Storage) (frames : List ℕ) :
    frames.foldl markClean (frames.foldl markClean st) = frames.foldl markClean st := by
  induction frames generalizing st with
  | nil => rfl
  | cons i frames ih =>
    have htwice : (st.markClean i).markClean i = st.markClean i := by
      by_cases hi : i < st.bpm.poolSize
      · have hframe := st.bpm.frame_setFrame_self hi { st.bpm.frame i with isDirty := false }
        rw [markClean.eq_1 (st.markClean i), markClean, hframe]
        exact congrArg (fun frames => { st with bpm := { st.bpm with frames } }) (List.set_set _)
      · have hsame : st.markClean i = st := by
          rw [markClean, BufferPoolManager.setFrame, List.set_eq_of_length_le (not_lt.mp hi)]
        rw [hsame, hsame]
    rw [List.foldl_cons, List.foldl_cons, ← foldl_markClean_markClean, htwice, ih]

/-- What the view shows is marked clean already. -/
theorem view_view (u : PwriteStorage) :
    PwriteStorage.view (VfsStorage.setStorage u (PwriteStorage.view u)) = PwriteStorage.view u :=
  Storage.foldl_markClean_self u.storage (PwriteStorage.pending u)

/-- The end of a full batch. -/
theorem follows_pwriteBoundary {submitted room : ℕ} {frames : List ℕ}
    (hflushes : PwriteFlushes submitted u room frames)
    (hbelow : submitted ≤ flushBatchLimit) :
    Follows PwriteStorage.view u (fun u => pwriteBoundary submitted u) (fun st => ((), st))
      fun submitted' _ u' => PwriteFlushes submitted' u' room frames ∧ submitted' < flushBatchLimit := by
  by_cases hfull : flushBatchLimit ≤ submitted
  · have hshort : (PwriteStorage.pending u).length ≤ vfsQueueSize := by
      rw [← hflushes.count]
      exact hbelow.trans (by decide)
    have hroom : ([] : List (ℕ × ℤ)).length + room ≤ maxBatchEvents := by
      have := hflushes.room
      rw [List.length_nil]
      omega
    have hturn : Follows PwriteStorage.view u
        (fun u => some (0, VfsStorage.setCtx (VfsStorage.setStorage u (PwriteStorage.view u)) []))
        (fun st => ((), st))
        fun submitted' _ u' => PwriteFlushes submitted' u' room frames ∧ submitted' < flushBatchLimit :=
      .turn (fun u => VfsStorage.setCtx (VfsStorage.setStorage u (PwriteStorage.view u)) []) id (fun _ => rfl)
        (fun _ _ => rfl) ⟨⟨rfl, hroom, fun _ hmem => absurd hmem List.not_mem_nil⟩, by decide⟩
    refine hturn.congr (fun choices => ?_) fun _ _ => rfl
    rw [pwriteBoundary, if_pos hfull, pwriteVfs_submitBatch hshort]
    rfl
  · exact (Follows.done ⟨hflushes, not_le.mp hfull⟩).congr (fun _ => if_neg hfull) fun _ _ => rfl

/-- One frame of the flush loop. -/
theorem follows_pwriteStep {submitted room i : ℕ} {frames : List ℕ}
    (hflushes : PwriteFlushes submitted u (room + 1) frames)
    (hbelow : submitted < flushBatchLimit) (hnew : i ∉ frames) :
    Follows PwriteStorage.view u (fun u => pwriteVfs.flushAllStep submitted u i) (fun st => ((), st.writeFrame i))
      fun submitted' _ u' => PwriteFlushes submitted' u' room (i :: frames) ∧ submitted' < flushBatchLimit := by
  have hnotPending : i ∉ PwriteStorage.pending u := fun hmem => hnew (hflushes.frames i hmem)
  by_cases hneeds : u.storage.bpm.NeedsWrite i
  · have hstep := @Follows.bind _ _ _ _ _ _ _ _ _ _ _ (fun submitted u => pwriteBoundary submitted u)
      (fun _ st => ((), st))
      (fun submitted' _ u' => PwriteFlushes submitted' u' room (i :: frames) ∧ submitted' < flushBatchLimit)
      (follows_pwriteFrame hflushes hneeds hnew) fun submitted' _ u' hframe =>
        follows_pwriteBoundary hframe.1 (hframe.2.trans hbelow)
    exact hstep.congr (fun _ => if_pos hneeds) fun _ _ => rfl
  · have hroom := hflushes.room
    have hdone : Follows PwriteStorage.view u (fun u => some (submitted, u)) (fun st => ((), st))
        fun submitted' _ u' => PwriteFlushes submitted' u' room (i :: frames) ∧ submitted' < flushBatchLimit :=
      .done ⟨⟨hflushes.count, by omega, fun j hj => List.mem_cons_of_mem _ (hflushes.frames j hj)⟩, hbelow⟩
    refine hdone.congr (fun _ => if_neg hneeds) fun _ _ => ?_
    rw [Storage.writeFrame, Storage.bpm_withOutcomes, if_neg fun h => hneeds ((needsWrite_view hnotPending).mp h)]

/-- The flush loop. -/
theorem follows_pwriteLoop {indices : List ℕ} {submitted : ℕ} {frames : List ℕ}
    (hflushes : PwriteFlushes submitted u indices.length frames) (hbelow : submitted < flushBatchLimit)
    (hnodup : indices.Nodup) (hnew : ∀ i ∈ frames, i ∉ indices) :
    Follows PwriteStorage.view u (fun u => pwriteVfs.flushAllLoop indices submitted u)
      (fun st => ((), indices.foldl Storage.writeFrame st))
      fun submitted' _ u' => submitted' = (PwriteStorage.pending u').length ∧ submitted' < flushBatchLimit := by
  induction indices generalizing u submitted frames with
  | nil => exact .done ⟨hflushes.count, hbelow⟩
  | cons i rest ih =>
    obtain ⟨hnotIn, hrest⟩ := List.nodup_cons.mp hnodup
    have hloop := @Follows.bind _ _ _ _ _ _ _ _ _ _ _ (fun submitted u => pwriteVfs.flushAllLoop rest submitted u)
      (fun _ st => ((), rest.foldl Storage.writeFrame st))
      (fun submitted' _ u' => submitted' = (PwriteStorage.pending u').length ∧ submitted' < flushBatchLimit)
      (follows_pwriteStep hflushes hbelow fun hmem => hnew i hmem List.mem_cons_self)
      fun submitted' _ u' hstep => ih hstep.1 hstep.2 hrest fun j hj hmem => by
        obtain rfl | hold := List.mem_cons.mp hj
        · exact hnotIn hmem
        · exact hnew j hold (List.mem_cons_of_mem _ hmem)
    exact hloop.congr (fun _ => rfl) fun _ _ => rfl

/-- The flush loop and the last batch. -/
theorem follows_pwriteFlushFrames (u : PwriteStorage) (hlimit : u.storage.bpm.poolSize ≤ maxBatchEvents) :
    Follows VfsStorage.storage u (fun u => (pwriteVfs.flushFrames u).map fun u => ((), u))
      (fun st => ((), st.flushFrames)) fun _ _ _ => True := by
  have hempty : PwriteStorage.pending (pwriteVfs.beginBatch u) = [] := rfl
  have hstarts : PwriteFlushes 0 (pwriteVfs.beginBatch u) (List.range u.storage.bpm.poolSize).length [] :=
    ⟨rfl, by rw [List.length_range]; exact (Nat.zero_add _).trans_le hlimit,
      fun _ hmem => absurd hmem List.not_mem_nil⟩
  have hlast := @Follows.bind _ _ _ _ _ _ _ _ _ _ _
    (fun submitted u => if 0 < submitted then (pwriteVfs.submitBatch u).map fun u => ((), u) else some ((), u))
    (fun _ st => ((), st)) (fun _ _ u' => PwriteStorage.view u' = u'.storage)
    (follows_pwriteLoop hstarts (by decide) List.nodup_range fun _ hmem => absurd hmem List.not_mem_nil)
    fun submitted _ u' hloop => by
      obtain ⟨rfl, hbelow⟩ := hloop
      by_cases hsome : 0 < (PwriteStorage.pending u').length
      · have hturn : Follows PwriteStorage.view u'
            (fun u => some ((), VfsStorage.setStorage u (PwriteStorage.view u))) (fun st => ((), st))
            fun _ _ u' => PwriteStorage.view u' = u'.storage :=
          .turn (fun u => VfsStorage.setStorage u (PwriteStorage.view u)) id (fun _ => rfl)
            (fun _ _ => by rw [view_view]; rfl) (view_view u')
        refine hturn.congr (fun choices => ?_) fun _ _ => rfl
        rw [if_pos hsome, pwriteVfs_submitBatch (hbelow.le.trans (by decide))]
        rfl
      · have hnil : PwriteStorage.pending u' = [] := List.eq_nil_of_length_eq_zero (by omega)
        simp only [if_neg hsome]
        exact .done (by rw [PwriteStorage.view, hnil]; rfl)
  have hbegun : Follows VfsStorage.storage (pwriteVfs.beginBatch u) _ _ fun _ _ _ => True :=
    (hlast.of_view rfl fun _ _ _ h => h).mono fun _ _ _ _ => trivial
  refine (hbegun.start (u := u) (p := fun u => (pwriteVfs.flushFrames u).map fun u => ((), u)) rfl
    fun choices => ?_).congr
    (fun _ => rfl) fun reads writes => congrArg (Prod.mk ()) (Storage.flushFrames_eq _)
  rw [VfsBackend.flushFrames, Option.map_bind]
  refine Option.bind_congr fun result _ => ?_
  rw [Function.comp_apply, apply_ite (Option.map _)]
  rfl

end Frames

/-! ## Runs -/

/-- The early results of a batch do not matter after the flush of a pool whose frames all fit into it. -/
theorem sequential_pwriteVfs : SequentialVfs pwriteVfs maxBatchEvents fun _ => True where
  init := trivial
  write u _ := follows_pwrite u
  read u _ := follows_pread u
  flush u _ _ hlimit := follows_pwriteFlushFrames u hlimit

/-- For pools of at most 1024 frames the two backends have the same runs: what the caller is answered, the frames,
the log and the files after a sequence of operations over one of them can all come out over the other. -/
theorem pwriteRun_iff {st : Storage} (hsound : st.bpm.Sound) (hlimit : st.bpm.poolSize ≤ maxBatchEvents)
    {calls : List (PoolOp × List IoOutcome)} (hpages : ∀ call ∈ calls, call.1.FetchesPages)
    (answers : List PoolAnswer) (after : Storage) :
    (∃ steps final, steps.map VfsStep.call = calls ∧
      pwriteVfs.run (pwriteVfs.init st) steps = some (answers, final) ∧ final.storage.settled = after) ↔
      ∃ steps final, steps.map VfsStep.call = calls ∧
        uringVfs.run (uringVfs.init st) steps = some (answers, final) ∧ final.storage.settled = after := by
  have hsmall : st.bpm.poolSize < 2 ^ 31 := hlimit.trans_lt (by decide)
  obtain ⟨hpwrite, hpwrite'⟩ := sequential_pwriteVfs.runs hsound hsmall hlimit hpages
  obtain ⟨huring, huring'⟩ := (sequential_uringVfs st.bpm.poolSize).runs hsound hsmall le_rfl hpages
  constructor
  · rintro ⟨steps, final, hcalls, hrun, rfl⟩
    obtain ⟨-, poolSteps, hsame, rfl, hsettled⟩ := hpwrite steps answers final hcalls hrun
    obtain ⟨steps', final', hcalls', hrun', hsettled'⟩ := huring' poolSteps hsame
    exact ⟨steps', final', hcalls', hrun', hsettled'.trans hsettled⟩
  · rintro ⟨steps, final, hcalls, hrun, rfl⟩
    obtain ⟨-, poolSteps, hsame, rfl, hsettled⟩ := huring steps answers final hcalls hrun
    obtain ⟨steps', final', hcalls', hrun', hsettled'⟩ := hpwrite' poolSteps hsame
    exact ⟨steps', final', hcalls', hrun', hsettled'.trans hsettled⟩

/-- The flush of two dirty pages leaves the same over both backends. -/
theorem pwriteRun_iff_flush :
    ∃ after,
      (∃ steps final, steps.map VfsStep.call = twoPagesFlushed ∧
        pwriteVfs.run (pwriteVfs.init (bufferPoolInit 3 none Host.empty 2)) steps =
          some ([.frame (some 0), .done, .frame (some 1), .done, .done], final) ∧ final.storage.settled = after) ∧
      ∃ steps final, steps.map VfsStep.call = twoPagesFlushed ∧
        uringVfs.run (uringVfs.init (bufferPoolInit 3 none Host.empty 2)) steps =
          some ([.frame (some 0), .done, .frame (some 1), .done, .done], final) ∧ final.storage.settled = after := by
  have hsound := @sound_bufferPoolInit 3 none Host.empty 2 (by decide)
  have huring := ((sequential_uringVfs 2).runs hsound (by decide) le_rfl fetchesPages_twoPagesFlushed).2
  obtain ⟨steps, final, hcalls, hrun, -⟩ :=
    huring (twoPagesFlushed.map fun call => ⟨call.1, [], [], call.2⟩) rfl
  have hboth := pwriteRun_iff hsound (by decide) fetchesPages_twoPagesFlushed
    [.frame (some 0), .done, .frame (some 1), .done, .done] final.storage.settled
  exact ⟨_, hboth.mpr ⟨steps, final, hcalls, hrun, rfl⟩, steps, final, hcalls, hrun, rfl⟩

end FtsUring
