import FtsUring.Foundation.Completions
import FtsUring.Storage.PoolInvariant

/-!
# The buffer pool over a backend

The pool moves pages through `fts_vfs`, which has two backends. A single read or write is made at once;
`bufferPoolFlushAll` hands up to sixteen writes to a batch before it submits them and asks which are completed.
The pool itself does not know the backend, so its operations are given once, for any backend.

The operating system decides how the calls of a backend come out; the decisions to come are queued. A call that
does not return is `none`.
-/

namespace FtsUring

open Foundation

/-! ## Requests -/

/-- A request to move bytes; the user data of a write is a frame. -/
inductive VfsRequest
  | read (count offset : ℕ)
  | write (data : List UInt8) (offset : ℕ) (userData : Option ℕ)

/-- The frame that a request carries. -/
def VfsRequest.userData : VfsRequest → Option ℕ
  | .read _ _ => none
  | .write _ _ userData => userData

/-- The result of a request, negative if it failed, and the bytes that a read left in the buffer. -/
structure VfsReply where
  res : ℤ
  bytes : List UInt8

/-- What the requests do to the data file. -/
def vfsEffect : VfsRequest → IoOutcome → List UInt8 → List UInt8
  | .read _ _, _, file => file
  | .write data offset _, outcome, file =>
    match outcome.transferred data.length with
    | none => file
    | some moved => pwriteFile file offset (data.take moved)

/-- The results of the requests. -/
def vfsReply : VfsRequest → IoOutcome → List UInt8 → VfsReply
  | .read count offset, outcome, file =>
    match outcome.transferred count with
    | none => ⟨-1, []⟩
    | some moved => ⟨(slice file offset moved).length, slice file offset moved⟩
  | .write data _ _, outcome, _ =>
    match outcome.transferred data.length with
    | none => ⟨-1, []⟩
    | some moved => ⟨moved, []⟩

/-! ## Backends -/

/-- The storage with the context of a backend and the decisions to come. -/
structure VfsStorage (κ χ : Type) where
  storage : Storage
  ctx : κ
  choices : List χ

namespace VfsStorage

variable {κ χ : Type}

/-- Change the pool, the log or the files. -/
def setStorage (u : VfsStorage κ χ) (storage : Storage) : VfsStorage κ χ := { u with storage }

/-- Change the context of the backend. -/
def setCtx (u : VfsStorage κ χ) (ctx : κ) : VfsStorage κ χ := { u with ctx }

/-- Change the decisions to come. -/
def setChoices (u : VfsStorage κ χ) (choices : List χ) : VfsStorage κ χ := { u with choices }

/-- Change the data file. -/
def setDataFile (u : VfsStorage κ χ) (dataFile : List UInt8) : VfsStorage κ χ :=
  u.setStorage { u.storage with host := { u.storage.host with dataFile } }

/-- The decisions to come do not change the storage. -/
@[simp] theorem storage_setChoices (u : VfsStorage κ χ) (choices : List χ) :
    (u.setChoices choices).storage = u.storage := rfl

end VfsStorage

/-- The functions of a backend. -/
structure VfsBackend (κ χ : Type) where
  /-- `fts_vfs_init`. -/
  ftsVfsInit : κ
  /-- `fts_vfs_read_sync`. -/
  ftsVfsReadSync : VfsStorage κ χ → ℕ → ℕ → Option (VfsReply × VfsStorage κ χ)
  /-- `fts_vfs_write_sync`. -/
  ftsVfsWriteSync : VfsStorage κ χ → List UInt8 → ℕ → Option (ℤ × VfsStorage κ χ)
  /-- `fts_vfs_batch_begin`. -/
  ftsVfsBatchBegin : κ → κ
  /-- `fts_vfs_batch_add_write`. -/
  ftsVfsBatchAddWrite : VfsStorage κ χ → List UInt8 → ℕ → ℕ → ℤ × VfsStorage κ χ
  /-- `fts_vfs_batch_submit_and_wait`. -/
  ftsVfsBatchSubmitAndWait : VfsStorage κ χ → ℕ → Option (List (Option ℕ) × VfsStorage κ χ)

namespace VfsBackend

variable {κ χ : Type} (vfs : VfsBackend κ χ)

/-! ## The pool -/

/-- Start a batch. -/
def beginBatch (u : VfsStorage κ χ) : VfsStorage κ χ := u.setCtx (vfs.ftsVfsBatchBegin u.ctx)

/-- Write one page back if it is cached and dirty. -/
def bufferPoolFlushPage (u : VfsStorage κ χ) (pageId : ℕ) : Option (ℤ × VfsStorage κ χ) :=
  if pageId = invalidPageId then some (-1, u)
  else
    match u.storage.bpm.frameIndex pageId with
    | none => some (-1, u)
    | some i =>
      let frame := u.storage.bpm.frame i
      if frame.isDirty ∧ 0 ≤ u.storage.bpm.diskFd then
        (vfs.ftsVfsWriteSync (u.setStorage u.storage.flushWal) frame.pageData.bytes (pageId * pageSize)).map
          fun result =>
            if result.1 < 0 then (-1, result.2) else (0, result.2.setStorage (result.2.storage.markClean i))
      else some (0, u)

/-- Choose a frame to reuse and write it back if it is dirty; negative when all are pinned. -/
def findVictimFrame (u : VfsStorage κ χ) : Option (ℤ × VfsStorage κ χ) :=
  let bpm := u.storage.bpm
  let (victim, hand) := clockScan bpm.frames (clockAttempts bpm.poolSize) bpm.clockHand
  let u := u.setStorage { u.storage with bpm := { bpm with clockHand := hand } }
  match victim with
  | none => some (-1, u)
  | some i =>
    let frame := u.storage.bpm.frame i
    if frame.pageId ≠ invalidPageId ∧ frame.isDirty then
      (vfs.bufferPoolFlushPage u frame.pageId).map fun result => (toCInt i, result.2)
    else some (toCInt i, u)

/-- The buffer after bytes were read into it: a page that was not read in full is formatted as an empty row
page. -/
def pageOfBytes (pageId : ℕ) (bytes : List UInt8) : Page :=
  if h : bytes.length = pageSize then ⟨bytes, h⟩ else slottedPageInit pageId .row

/-- The buffer after reading a page. -/
def readPageOrFormat (u : VfsStorage κ χ) (pageId : ℕ) : Option (Page × VfsStorage κ χ) :=
  (vfs.ftsVfsReadSync u pageSize (pageId * pageSize)).map fun result => (pageOfBytes pageId result.1.bytes, result.2)

/-- Pin a page, loading it into a victim frame if it is not cached. NULL is `none`. -/
def bufferPoolFetchPage (u : VfsStorage κ χ) (pageId : ℕ) : Option (Option ℕ × VfsStorage κ χ) :=
  match u.storage.bpm.frameIndex pageId with
  | some i =>
    let frame := u.storage.bpm.frame i
    some (some i, u.setStorage { u.storage with
      bpm := u.storage.bpm.setFrame i { frame with pinCount := (frame.pinCount + 1) % 2 ^ 32 } })
  | none =>
    (vfs.findVictimFrame u).bind fun result =>
      if result.1 < 0 then some (none, result.2)
      else
        let i := result.1.toNat
        let load := fun (page : Page) (u : VfsStorage κ χ) =>
          (some i, u.setStorage { u.storage with bpm := u.storage.bpm.setFrame i ⟨pageId, 1, false, page⟩ })
        if 0 ≤ result.2.storage.bpm.diskFd then
          (vfs.readPageOrFormat result.2 pageId).map fun read => load read.1 read.2
        else some (load (slottedPageInit pageId .row) result.2)

/-- Mark the frame of a completed write clean, if it has one. -/
def markCompleted (st : Storage) (completed : Option ℕ) : Storage :=
  match completed with
  | none => st
  | some i => st.markClean i

/-- Submit the writes of a batch and mark the frames of the completed ones clean. -/
def submitBatch (u : VfsStorage κ χ) : Option (VfsStorage κ χ) :=
  (vfs.ftsVfsBatchSubmitAndWait u vfsQueueSize).map fun result =>
    result.2.setStorage (result.1.foldl markCompleted result.2.storage)

/-- One frame of the flush loop; `submitted` is the number of writes in the batch. -/
def flushAllStep (submitted : ℕ) (u : VfsStorage κ χ) (i : ℕ) : Option (ℕ × VfsStorage κ χ) :=
  let frame := u.storage.bpm.frame i
  if frame.pageId ≠ invalidPageId ∧ frame.isDirty ∧ 0 ≤ u.storage.bpm.diskFd then
    let added := vfs.ftsVfsBatchAddWrite u frame.pageData.bytes (frame.pageId * pageSize) i
    (if added.1 = 0 then some (submitted + 1, added.2)
      else
        (vfs.ftsVfsWriteSync added.2 frame.pageData.bytes (frame.pageId * pageSize)).map fun result =>
          (submitted, if 0 ≤ result.1 then result.2.setStorage (result.2.storage.markClean i) else result.2)).bind
      fun result =>
        if flushBatchLimit ≤ result.1 then
          (vfs.submitBatch result.2).map fun u => (0, vfs.beginBatch u)
        else some result
  else some (submitted, u)

/-- The flush loop. -/
def flushAllLoop : List ℕ → ℕ → VfsStorage κ χ → Option (ℕ × VfsStorage κ χ)
  | [], submitted, u => some (submitted, u)
  | i :: rest, submitted, u =>
    (vfs.flushAllStep submitted u i).bind fun result => flushAllLoop rest result.1 result.2

/-- The flush loop and the submission of the last writes. -/
def flushFrames (u : VfsStorage κ χ) : Option (VfsStorage κ χ) :=
  (vfs.flushAllLoop (List.range u.storage.bpm.poolSize) 0 (vfs.beginBatch u)).bind fun result =>
    if 0 < result.1 then vfs.submitBatch result.2 else some result.2

/-- Write back every dirty page, after the log. -/
def bufferPoolFlushAll (u : VfsStorage κ χ) : Option (VfsStorage κ χ) :=
  let anyDirty := u.storage.bpm.frames.any fun frame => frame.pageId ≠ invalidPageId ∧ frame.isDirty
  vfs.flushFrames (if anyDirty then u.setStorage u.storage.flushWal else u)

end VfsBackend

/-! ## Runs -/

/-- What an operation returns. -/
inductive PoolAnswer
  | frame (answer : Option ℕ)
  | status (res : ℤ)
  | done
  deriving DecidableEq, Repr

/-- Make the operation, with its answer. -/
def PoolOp.answer (op : PoolOp) (st : Storage) : PoolAnswer × Storage :=
  match op with
  | .fetch pageId => (.frame (bufferPoolFetchPage st pageId).1, (bufferPoolFetchPage st pageId).2)
  | .flushPage pageId => (.status (bufferPoolFlushPage st pageId).1, (bufferPoolFlushPage st pageId).2)
  | op => (.done, op.apply st)

/-- The operations one after the other. -/
def Storage.run : Storage → List PoolStep → List PoolAnswer × Storage
  | st, [] => ([], st)
  | st, step :: rest =>
    let first := step.op.answer (step.storage st)
    let later := first.2.run rest
    (first.1 :: later.1, later.2)

/-- What the caller asks for in a step, with the outcomes of the log flushes. -/
def PoolStep.call (step : PoolStep) : PoolOp × List IoOutcome := (step.op, step.walSyncs)

/-- An operation over a backend, with the decisions of the operating system. -/
structure VfsStep (χ : Type) where
  op : PoolOp
  choices : List χ
  walSyncs : List IoOutcome

namespace VfsStep

variable {κ χ : Type}

/-- What the caller asks for in a step, with the outcomes of the log flushes. -/
def call (step : VfsStep χ) : PoolOp × List IoOutcome := (step.op, step.walSyncs)

/-- The storage when an operation begins. -/
def storage (step : VfsStep χ) (u : VfsStorage κ χ) : VfsStorage κ χ :=
  (u.setStorage { u.storage with host := { u.storage.host with walSyncs := step.walSyncs } }).setChoices step.choices

end VfsStep

namespace VfsBackend

variable {κ χ : Type} (vfs : VfsBackend κ χ)

/-- A pool with a new context. -/
def init (st : Storage) : VfsStorage κ χ := ⟨st, vfs.ftsVfsInit, []⟩

/-- Make the operation over the backend. -/
def answer (op : PoolOp) (u : VfsStorage κ χ) : Option (PoolAnswer × VfsStorage κ χ) :=
  match op with
  | .fetch pageId => (vfs.bufferPoolFetchPage u pageId).map fun result => (.frame result.1, result.2)
  | .modify pageId change => some (.done, u.setStorage (modifyPinnedPage u.storage pageId change))
  | .unpin pageId isDirty hint => some (.done, u.setStorage (bufferPoolUnpinPage u.storage pageId isDirty hint))
  | .flushPage pageId => (vfs.bufferPoolFlushPage u pageId).map fun result => (.status result.1, result.2)
  | .flushAll => (vfs.bufferPoolFlushAll u).map fun u => (.done, u)

/-- The operations over the backend one after the other. -/
def run : VfsStorage κ χ → List (VfsStep χ) → Option (List PoolAnswer × VfsStorage κ χ)
  | u, [] => some ([], u)
  | u, step :: rest =>
    (vfs.answer step.op (step.storage u)).bind fun first =>
      (run first.2 rest).map fun later => (first.1 :: later.1, later.2)

end VfsBackend

end FtsUring
