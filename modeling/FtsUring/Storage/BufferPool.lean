import FtsUring.Storage.SlottedPage
import FtsUring.Storage.Wal
import Mathlib.Data.List.GetD

/-!
# The buffer pool

A fixed number of frames caches pages of the data file. Pages are looked up by a scan over
the frames, victims are chosen by a clock hand, and dirty victims are written back on
eviction. The io_uring backend performs single reads and writes synchronously and lets
`bufferPoolFlushAll` queue writes in batches.

A `Frame *` is the index of the frame. The frame indices returned by the victim search are C
`int` values, and the bound on the clock scan is the 32-bit product `pool_size * 2`.
-/

namespace FtsUring

open Foundation

/-- A cached page. -/
structure Frame where
  pageId : ℕ
  pinCount : ℕ
  isDirty : Bool
  pageData : Page

/-- A frame that holds no page. -/
def Frame.empty : Frame := ⟨invalidPageId, 0, false, Page.zero⟩

/-- The pool of frames over one data file. -/
structure BufferPoolManager where
  frames : List Frame
  clockHand : ℕ
  diskFd : ℤ

/-- `bpm->pool_size`. -/
def BufferPoolManager.poolSize (bpm : BufferPoolManager) : ℕ := bpm.frames.length

/-- `bpm->frames[i]`. -/
def BufferPoolManager.frame (bpm : BufferPoolManager) (i : ℕ) : Frame := bpm.frames.getD i Frame.empty

/-- Replace one frame. -/
def BufferPoolManager.setFrame (bpm : BufferPoolManager) (i : ℕ) (frame : Frame) : BufferPoolManager :=
  { bpm with frames := bpm.frames.set i frame }

/-- The first frame that holds a page id. -/
def BufferPoolManager.frameIndex (bpm : BufferPoolManager) (pageId : ℕ) : Option ℕ :=
  bpm.frames.findIdx? fun frame => frame.pageId == pageId

/-- The pool, the log attached to it (if any), and the files below them. -/
structure Storage where
  bpm : BufferPoolManager
  wal : Option WALManager
  host : Host

/-- Eviction hints given when a page is unpinned. -/
inductive BufferPoolHint
  | normal
  | sequentialScan
  deriving DecidableEq, Repr

/-! ## Page transfers -/

/-- Read from the data file; a negative result (`none`) is an error. -/
def ftsVfsReadSync (host : Host) (count offset : ℕ) : Option (List UInt8) × Host :=
  let host' := { host with pageReads := host.pageReads.tail }
  match (host.pageReads.headD .full).transferred count with
  | none => (none, host')
  | some moved => (some (slice host.dataFile offset moved), host')

/-- Write to the data file, returning the number of bytes written or a negative error. -/
def ftsVfsWriteSync (host : Host) (data : List UInt8) (offset : ℕ) : ℤ × Host :=
  match (host.pageWrites.headD .full).transferred data.length with
  | none => (-1, { host with pageWrites := host.pageWrites.tail })
  | some moved =>
    (moved, { host with
      dataFile := pwriteFile host.dataFile offset (data.take moved)
      pageWrites := host.pageWrites.tail })

/-- The queue size of the io_uring instance. -/
def vfsQueueSize : ℕ := 32

/-- One queued write of a batch: the frames of the writes that did not fail are collected, at
most `maxEvents` of them. -/
def ftsVfsBatchComplete (bpm : BufferPoolManager) (maxEvents : ℕ) (state : List ℕ × Host) (i : ℕ) :
    List ℕ × Host :=
  let (completed, host) := state
  let frame := bpm.frame i
  let (res, host) := ftsVfsWriteSync host frame.pageData.bytes (frame.pageId * pageSize)
  if completed.length < maxEvents ∧ 0 ≤ res then (completed ++ [i], host) else (completed, host)

/-- Submit the queued writes of the given frames and wait for all of them. -/
def ftsVfsBatchSubmitAndWait (bpm : BufferPoolManager) (queued : List ℕ) (maxEvents : ℕ)
    (host : Host) : List ℕ × Host :=
  queued.foldl (ftsVfsBatchComplete bpm maxEvents) ([], host)

/-! ## Pool operations -/

/-- Set up `poolSize` empty frames. -/
def bufferPoolInit (diskFd : ℤ) (wal : Option WALManager) (host : Host) (poolSize : ℕ) : Storage where
  bpm := ⟨List.replicate poolSize Frame.empty, 0, diskFd⟩
  wal := wal
  host := host

/-- Flush the log if one is attached; callers ignore the result. -/
def Storage.flushWal (st : Storage) : Storage :=
  match st.wal with
  | none => st
  | some wal => { st with host := (walFlush wal st.host).2 }

/-- Mark a frame clean. -/
def Storage.markClean (st : Storage) (i : ℕ) : Storage :=
  { st with bpm := st.bpm.setFrame i { st.bpm.frame i with isDirty := false } }

/-- Write one page back if it is cached and dirty. -/
def bufferPoolFlushPage (st : Storage) (pageId : ℕ) : ℤ × Storage :=
  if pageId = invalidPageId then (-1, st)
  else
    match st.bpm.frameIndex pageId with
    | none => (-1, st)
    | some i =>
      let frame := st.bpm.frame i
      if frame.isDirty ∧ 0 ≤ st.bpm.diskFd then
        let st := st.flushWal
        let (res, host) := ftsVfsWriteSync st.host frame.pageData.bytes (pageId * pageSize)
        let st := { st with host }
        if res < 0 then (-1, st) else (0, st.markClean i)
      else (0, st)

/-- The clock scan: the first frame from the hand on that is empty or not pinned, and where
the hand stops. -/
def clockScan (frames : List Frame) : ℕ → ℕ → Option ℕ × ℕ
  | 0, hand => (none, hand)
  | attempts + 1, hand =>
    let frame := frames.getD hand Frame.empty
    let next := (hand + 1) % frames.length
    if frame.pageId = invalidPageId ∨ frame.pinCount = 0 then (some hand, next)
    else clockScan frames attempts next

/-- The bound on the clock scan: a 32-bit product. -/
def clockAttempts (poolSize : ℕ) : ℕ := poolSize * 2 % 2 ^ 32

/-- A 32-bit unsigned number returned as an `int`. -/
def toCInt (value : ℕ) : ℤ := if value < 2 ^ 31 then value else (value : ℤ) - 2 ^ 32

/-- Choose a frame to reuse and write it back if it is dirty; negative when all are pinned. -/
def findVictimFrame (st : Storage) : ℤ × Storage :=
  let (victim, hand) := clockScan st.bpm.frames (clockAttempts st.bpm.poolSize) st.bpm.clockHand
  let st := { st with bpm := { st.bpm with clockHand := hand } }
  match victim with
  | none => (-1, st)
  | some i =>
    let frame := st.bpm.frame i
    let st :=
      if frame.pageId ≠ invalidPageId ∧ frame.isDirty then (bufferPoolFlushPage st frame.pageId).2
      else st
    (toCInt i, st)

/-- The buffer after reading a page: a page that cannot be read in full is formatted as an
empty row page. -/
def readPageOrFormat (host : Host) (pageId : ℕ) : Page × Host :=
  match ftsVfsReadSync host pageSize (pageId * pageSize) with
  | (some bytes, host) =>
    if h : bytes.length = pageSize then (⟨bytes, h⟩, host)
    else (slottedPageInit pageId .row, host)
  | (none, host) => (slottedPageInit pageId .row, host)

/-- Pin a page, loading it into a victim frame if it is not cached. NULL is `none`. -/
def bufferPoolFetchPage (st : Storage) (pageId : ℕ) : Option ℕ × Storage :=
  match st.bpm.frameIndex pageId with
  | some i =>
    let frame := st.bpm.frame i
    (some i, { st with
      bpm := st.bpm.setFrame i { frame with pinCount := (frame.pinCount + 1) % 2 ^ 32 } })
  | none =>
    let (victim, st) := findVictimFrame st
    if victim < 0 then (none, st)
    else
      let i := victim.toNat
      if 0 ≤ st.bpm.diskFd then
        let (page, host) := readPageOrFormat st.host pageId
        (some i, { st with bpm := st.bpm.setFrame i ⟨pageId, 1, false, page⟩, host })
      else
        (some i, { st with
          bpm := st.bpm.setFrame i ⟨pageId, 1, false, slottedPageInit pageId .row⟩ })

/-- Release a pin, marking the page dirty if the caller says so. A sequential scan leaves the
clock hand at the frame, so that it is the next victim. -/
def bufferPoolUnpinPage (st : Storage) (pageId : ℕ) (isDirty : Bool) (hint : BufferPoolHint) :
    Storage :=
  match st.bpm.frameIndex pageId with
  | none => st
  | some i =>
    let frame := st.bpm.frame i
    let frame :=
      { frame with pinCount := frame.pinCount - 1, isDirty := frame.isDirty || isDirty }
    let bpm := st.bpm.setFrame i frame
    if frame.pinCount = 0 ∧ hint = .sequentialScan then
      { st with bpm := { bpm with clockHand := i } }
    else { st with bpm }

/-- The number of queued writes that starts a submission. -/
def flushBatchLimit : ℕ := 16

/-- Submit the queued writes and mark the frames of the completed ones clean. -/
def Storage.submitBatch (st : Storage) (queued : List ℕ) : Storage :=
  let (completed, host) := ftsVfsBatchSubmitAndWait st.bpm queued vfsQueueSize st.host
  completed.foldl Storage.markClean { st with host }

/-- One frame of the flush loop; `queued` are the frames whose writes are not yet submitted.
When the queue has no room, the page is written synchronously. -/
def flushAllStep (state : Storage × List ℕ) (i : ℕ) : Storage × List ℕ :=
  let (st, queued) := state
  let frame := st.bpm.frame i
  if frame.pageId ≠ invalidPageId ∧ frame.isDirty ∧ 0 ≤ st.bpm.diskFd then
    let (st, queued) :=
      if queued.length < vfsQueueSize then (st, queued ++ [i])
      else
        let (res, host) :=
          ftsVfsWriteSync st.host frame.pageData.bytes (frame.pageId * pageSize)
        let st := { st with host }
        (if 0 ≤ res then st.markClean i else st, queued)
    if flushBatchLimit ≤ queued.length then (st.submitBatch queued, []) else (st, queued)
  else (st, queued)

/-- The flush loop and the submission of the last writes. -/
def Storage.flushFrames (st : Storage) : Storage :=
  let (st, queued) := (List.range st.bpm.poolSize).foldl flushAllStep (st, [])
  if queued.length > 0 then st.submitBatch queued else st

/-- Write back every dirty page, after the log. -/
def bufferPoolFlushAll (st : Storage) : Storage :=
  let anyDirty := st.bpm.frames.any fun frame => frame.pageId ≠ invalidPageId ∧ frame.isDirty
  (if anyDirty then st.flushWal else st).flushFrames

/-! ## Frames and lookups -/

namespace BufferPoolManager

/-- Replacing a frame keeps the number of frames. -/
@[simp] theorem poolSize_setFrame (bpm : BufferPoolManager) (i : ℕ) (frame : Frame) :
    (bpm.setFrame i frame).poolSize = bpm.poolSize := by
  simp [poolSize, setFrame]

/-- Replacing a frame keeps the file descriptor. -/
@[simp] theorem diskFd_setFrame (bpm : BufferPoolManager) (i : ℕ) (frame : Frame) :
    (bpm.setFrame i frame).diskFd = bpm.diskFd := rfl

/-- Replacing a frame keeps the clock hand. -/
@[simp] theorem clockHand_setFrame (bpm : BufferPoolManager) (i : ℕ) (frame : Frame) :
    (bpm.setFrame i frame).clockHand = bpm.clockHand := rfl

/-- Moving the clock hand changes no frame. -/
@[simp] theorem frame_clockHand (bpm : BufferPoolManager) (hand i : ℕ) :
    ({ bpm with clockHand := hand } : BufferPoolManager).frame i = bpm.frame i := rfl

/-- Moving the clock hand changes no lookup. -/
@[simp] theorem frameIndex_clockHand (bpm : BufferPoolManager) (hand pageId : ℕ) :
    ({ bpm with clockHand := hand } : BufferPoolManager).frameIndex pageId = bpm.frameIndex pageId :=
  rfl

/-- There is no frame past the end of the pool. -/
theorem frame_of_le (bpm : BufferPoolManager) {i : ℕ} (h : bpm.poolSize ≤ i) :
    bpm.frame i = Frame.empty := by
  rw [frame, List.getD_eq_default _ _ h]

/-- A frame with a page id lies in the pool. -/
theorem lt_poolSize_of_frame (bpm : BufferPoolManager) {i : ℕ}
    (h : (bpm.frame i).pageId ≠ invalidPageId) : i < bpm.poolSize := by
  by_contra hle
  rw [bpm.frame_of_le (not_lt.mp hle)] at h
  exact h rfl

/-- The replaced frame. -/
theorem frame_setFrame_self (bpm : BufferPoolManager) {i : ℕ} (h : i < bpm.poolSize)
    (frame : Frame) : (bpm.setFrame i frame).frame i = frame := by
  have hlength : i < (bpm.frames.set i frame).length := by simpa [poolSize] using h
  rw [BufferPoolManager.frame, setFrame, List.getD_eq_getElem _ _ hlength, List.getElem_set_self]

/-- The other frames. -/
theorem frame_setFrame_of_ne (bpm : BufferPoolManager) {i j : ℕ} (h : i ≠ j) (frame : Frame) :
    (bpm.setFrame i frame).frame j = bpm.frame j := by
  rw [BufferPoolManager.frame, setFrame, List.getD_eq_getElem?_getD, List.getElem?_set_ne h,
    ← List.getD_eq_getElem?_getD, BufferPoolManager.frame]

/-- All frames after one was replaced. -/
theorem frame_setFrame (bpm : BufferPoolManager) {i : ℕ} (h : i < bpm.poolSize) (frame : Frame)
    (j : ℕ) : (bpm.setFrame i frame).frame j = if i = j then frame else bpm.frame j := by
  split_ifs with hij
  · rw [← hij, bpm.frame_setFrame_self h]
  · rw [bpm.frame_setFrame_of_ne hij]

/-- A lookup that succeeds finds a frame with the page id. -/
theorem frameIndex_some {bpm : BufferPoolManager} {pageId i : ℕ}
    (h : bpm.frameIndex pageId = some i) : i < bpm.poolSize ∧ (bpm.frame i).pageId = pageId := by
  rw [frameIndex, List.findIdx?_eq_some_iff_getElem] at h
  obtain ⟨hlt, hpage, -⟩ := h
  refine ⟨hlt, ?_⟩
  rw [frame, List.getD_eq_getElem _ _ hlt]
  simpa using hpage

/-- A lookup that fails says that no frame has the page id. -/
theorem frameIndex_none {bpm : BufferPoolManager} {pageId : ℕ}
    (h : bpm.frameIndex pageId = none) {i : ℕ} (hi : i < bpm.poolSize) :
    (bpm.frame i).pageId ≠ pageId := by
  rw [frameIndex, List.findIdx?_eq_none_iff] at h
  rw [frame, List.getD_eq_getElem _ _ hi]
  simpa using h bpm.frames[i] (List.getElem_mem hi)

/-- A page that no frame has is not found. -/
theorem frameIndex_eq_none {bpm : BufferPoolManager} {pageId : ℕ}
    (h : ∀ i < bpm.poolSize, (bpm.frame i).pageId ≠ pageId) : bpm.frameIndex pageId = none := by
  cases hindex : bpm.frameIndex pageId with
  | none => rfl
  | some i =>
    obtain ⟨hi, hpage⟩ := frameIndex_some hindex
    exact absurd hpage (h i hi)

/-- No page is held by two frames. -/
def DistinctPages (bpm : BufferPoolManager) : Prop :=
  ∀ i j, (bpm.frame i).pageId ≠ invalidPageId → (bpm.frame i).pageId = (bpm.frame j).pageId → i = j

/-- Frames whose page ids are all different hold different pages. -/
theorem DistinctPages.of_nodup {bpm : BufferPoolManager} (h : (bpm.frames.map Frame.pageId).Nodup) :
    bpm.DistinctPages := by
  have hget : ∀ i < bpm.poolSize, (bpm.frames.map Frame.pageId)[i]? = some (bpm.frame i).pageId := by
    intro i hi
    rw [List.getElem?_map, List.getElem?_eq_getElem hi, BufferPoolManager.frame, List.getD_eq_getElem _ _ hi,
      Option.map_some]
  intro i j hi hij
  have hlt := bpm.lt_poolSize_of_frame hi
  have hlt' := bpm.lt_poolSize_of_frame (hij ▸ hi)
  have hlength : i < (bpm.frames.map Frame.pageId).length := by rwa [List.length_map]
  exact (List.getElem?_inj hlength h).mp (by rw [hget i hlt, hget j hlt', hij])

/-- With distinct pages a lookup finds the frame that holds the page. -/
theorem DistinctPages.frameIndex_frame {bpm : BufferPoolManager} (h : bpm.DistinctPages) {i : ℕ}
    (hi : (bpm.frame i).pageId ≠ invalidPageId) :
    bpm.frameIndex (bpm.frame i).pageId = some i := by
  cases hfound : bpm.frameIndex (bpm.frame i).pageId with
  | none => exact absurd rfl (frameIndex_none hfound (bpm.lt_poolSize_of_frame hi))
  | some j => rw [h i j hi (frameIndex_some hfound).2.symm]

/-- Changing a frame without changing its page keeps the pages distinct. -/
theorem DistinctPages.setFrame_same {bpm : BufferPoolManager} (h : bpm.DistinctPages) (i : ℕ)
    (frame : Frame) (hpage : frame.pageId = (bpm.frame i).pageId) :
    (bpm.setFrame i frame).DistinctPages := by
  have hpages : ∀ j, ((bpm.setFrame i frame).frame j).pageId = (bpm.frame j).pageId := by
    intro j
    by_cases hij : i = j
    · subst hij
      by_cases hi : i < bpm.poolSize
      · rw [bpm.frame_setFrame_self hi, hpage]
      · rw [frame_of_le _ (by simpa using hi), bpm.frame_of_le (not_lt.mp hi)]
    · rw [bpm.frame_setFrame_of_ne hij]
  intro j k hj hjk
  rw [hpages] at hj
  rw [hpages, hpages] at hjk
  exact h j k hj hjk

/-- Giving a frame a page that no frame holds keeps the pages distinct. -/
theorem DistinctPages.setFrame_new {bpm : BufferPoolManager} (h : bpm.DistinctPages) (i : ℕ)
    (frame : Frame) (hnew : bpm.frameIndex frame.pageId = none) :
    (bpm.setFrame i frame).DistinctPages := by
  by_cases hi : i < bpm.poolSize
  swap
  · rwa [setFrame, List.set_eq_of_length_le (not_lt.mp hi)]
  intro j k hj hjk
  by_cases hij : i = j <;> by_cases hik : i = k
  · rw [← hij, hik]
  · subst hij
    rw [bpm.frame_setFrame_self hi] at hj hjk
    rw [bpm.frame_setFrame_of_ne hik] at hjk
    have hk : (bpm.frame k).pageId ≠ invalidPageId := hjk ▸ hj
    exact absurd hjk.symm (frameIndex_none hnew (bpm.lt_poolSize_of_frame hk))
  · subst hik
    rw [bpm.frame_setFrame_self hi, bpm.frame_setFrame_of_ne hij] at hjk
    rw [bpm.frame_setFrame_of_ne hij] at hj
    exact absurd hjk (frameIndex_none hnew (bpm.lt_poolSize_of_frame hj))
  · rw [bpm.frame_setFrame_of_ne hij] at hj hjk
    rw [bpm.frame_setFrame_of_ne hik] at hjk
    exact h j k hj hjk

/-- Pages are held by one frame each, only frames that hold a page are dirty, and the clock hand
stands on a frame. The size of the pool is a 32-bit number. -/
structure WellFormed (bpm : BufferPoolManager) : Prop where
  distinct : bpm.DistinctPages
  dirtyNamed : ∀ i, (bpm.frame i).isDirty → (bpm.frame i).pageId ≠ invalidPageId
  hand : bpm.clockHand < bpm.poolSize ∨ bpm.poolSize = 0
  size : bpm.poolSize < 2 ^ 32

/-- Changing a frame without changing its page keeps the pool well formed. -/
theorem WellFormed.setFrame_same {bpm : BufferPoolManager} (h : bpm.WellFormed) {i : ℕ}
    (hi : i < bpm.poolSize) (frame : Frame) (hpage : frame.pageId = (bpm.frame i).pageId)
    (hdirty : frame.isDirty → frame.pageId ≠ invalidPageId) : (bpm.setFrame i frame).WellFormed := by
  refine ⟨h.distinct.setFrame_same i frame hpage, fun j hj => ?_, by simpa using h.hand,
    by simpa using h.size⟩
  rw [bpm.frame_setFrame hi] at hj ⊢
  split_ifs at hj ⊢
  · exact hdirty hj
  · exact h.dirtyNamed j hj

/-- Loading a page that no frame holds keeps the pool well formed. -/
theorem WellFormed.setFrame_new {bpm : BufferPoolManager} (h : bpm.WellFormed) {i : ℕ}
    (hi : i < bpm.poolSize) (frame : Frame) (hnew : bpm.frameIndex frame.pageId = none)
    (hclean : ¬frame.isDirty) : (bpm.setFrame i frame).WellFormed := by
  refine ⟨h.distinct.setFrame_new i frame hnew, fun j hj => ?_, by simpa using h.hand,
    by simpa using h.size⟩
  rw [bpm.frame_setFrame hi] at hj ⊢
  split_ifs at hj ⊢
  · exact absurd hj hclean
  · exact h.dirtyNamed j hj

/-- The frames of a new pool are empty. -/
theorem frame_replicate (count hand : ℕ) (diskFd : ℤ) (i : ℕ) :
    (⟨List.replicate count Frame.empty, hand, diskFd⟩ : BufferPoolManager).frame i =
      Frame.empty := by
  by_cases hi : i < count
  · simp [frame, hi]
  · exact frame_of_le _ (by simpa [poolSize] using hi)

/-- A new pool is well formed. -/
theorem wellFormed_replicate (diskFd : ℤ) {count : ℕ} (h : count < 2 ^ 32) :
    (⟨List.replicate count Frame.empty, 0, diskFd⟩ : BufferPoolManager).WellFormed := by
  refine ⟨?_, ?_, ?_, ?_⟩
  · intro i j hi
    rw [frame_replicate] at hi
    exact absurd rfl hi
  · intro i hdirty
    rw [frame_replicate] at hdirty
    exact absurd hdirty (by decide)
  · simp only [poolSize, List.length_replicate]
    omega
  · simpa [poolSize] using h

/-- Moving the clock hand to a frame keeps the pool well formed. -/
theorem WellFormed.moveHand {bpm : BufferPoolManager} (h : bpm.WellFormed) {hand : ℕ}
    (hhand : hand < bpm.poolSize ∨ bpm.poolSize = 0) :
    ({ bpm with clockHand := hand } : BufferPoolManager).WellFormed :=
  ⟨h.distinct, h.dirtyNamed, hhand, h.size⟩

end BufferPoolManager

/-- The clock scan stays in the pool, and the frame it finds is empty or not pinned. -/
theorem clockScan_spec (frames : List Frame) (attempts : ℕ) {hand : ℕ} (h : hand < frames.length) :
    (clockScan frames attempts hand).2 < frames.length ∧
      ∀ i, (clockScan frames attempts hand).1 = some i →
        i < frames.length ∧ ((frames.getD i Frame.empty).pageId = invalidPageId ∨
          (frames.getD i Frame.empty).pinCount = 0) := by
  induction attempts generalizing hand with
  | zero => exact ⟨h, by simp [clockScan]⟩
  | succ attempts ih =>
    have hnext : (hand + 1) % frames.length < frames.length := Nat.mod_lt _ (by omega)
    unfold clockScan
    simp only
    split_ifs with hfound
    · refine ⟨hnext, fun i hi => ?_⟩
      rw [Option.some.injEq] at hi
      subst hi
      exact ⟨h, hfound⟩
    · exact ih hnext

/-- A scan that comes by a frame that is empty or not pinned finds one. -/
theorem clockScan_isSome {frames : List Frame} {attempts hand offset : ℕ}
    (hoffset : offset < attempts) (hhand : hand < frames.length)
    (hfree : (frames.getD ((hand + offset) % frames.length) Frame.empty).pageId = invalidPageId ∨
      (frames.getD ((hand + offset) % frames.length) Frame.empty).pinCount = 0) :
    (clockScan frames attempts hand).1.isSome := by
  induction attempts generalizing hand offset with
  | zero => omega
  | succ attempts ih =>
    unfold clockScan
    simp only
    split_ifs with hfound
    · rfl
    · cases offset with
      | zero =>
        rw [Nat.add_zero, Nat.mod_eq_of_lt hhand] at hfree
        exact absurd hfree hfound
      | succ offset =>
        have hnext : (hand + 1) % frames.length < frames.length := Nat.mod_lt _ (by omega)
        have hoffset' : offset < attempts := by omega
        refine ih hoffset' hnext ?_
        have hsame : ((hand + 1) % frames.length + offset) % frames.length =
            (hand + (offset + 1)) % frames.length := by
          rw [Nat.mod_add_mod]
          congr 1
          omega
        rw [hsame]
        exact hfree

/-- A number below `2 ^ 31` survives the conversion to `int`, and only such a number is
non-negative afterwards. -/
theorem toCInt_nonneg {value : ℕ} (hvalue : value < 2 ^ 32) (h : 0 ≤ toCInt value) :
    value < 2 ^ 31 ∧ (toCInt value).toNat = value := by
  unfold toCInt at h ⊢
  split_ifs at h ⊢ with hsmall
  · exact ⟨hsmall, Int.toNat_natCast value⟩
  · omega

/-- The frame that the clock scan finds. -/
def BufferPoolManager.victim (bpm : BufferPoolManager) : Option ℕ :=
  (FtsUring.clockScan bpm.frames (clockAttempts bpm.poolSize) bpm.clockHand).1

/-- The pool after the clock scan. -/
def BufferPoolManager.scanned (bpm : BufferPoolManager) : BufferPoolManager :=
  { bpm with
    clockHand := (FtsUring.clockScan bpm.frames (clockAttempts bpm.poolSize) bpm.clockHand).2 }

/-- The victim search: the scan, and the write of a dirty victim. -/
theorem findVictimFrame_eq (st : Storage) :
    findVictimFrame st =
      match st.bpm.victim with
      | none => (-1, { st with bpm := st.bpm.scanned })
      | some i =>
        (toCInt i,
          if (st.bpm.frame i).pageId ≠ invalidPageId ∧ (st.bpm.frame i).isDirty then
            (bufferPoolFlushPage { st with bpm := st.bpm.scanned } (st.bpm.frame i).pageId).2
          else { st with bpm := st.bpm.scanned }) := rfl

/-- A well-formed pool stays so when it is scanned, and its victim is a frame that is empty or
not pinned. -/
theorem BufferPoolManager.WellFormed.scan {bpm : BufferPoolManager} (h : bpm.WellFormed) :
    bpm.scanned.WellFormed ∧
      ∀ i, bpm.victim = some i →
        i < bpm.poolSize ∧ ((bpm.frame i).pageId = invalidPageId ∨ (bpm.frame i).pinCount = 0) := by
  obtain hhand | hzero := h.hand
  · obtain ⟨hnext, hfound⟩ := clockScan_spec bpm.frames (clockAttempts bpm.poolSize) hhand
    exact ⟨h.moveHand (Or.inl hnext), hfound⟩
  · refine ⟨h.moveHand (Or.inr hzero), fun i hi => ?_⟩
    simp [victim, hzero, clockAttempts, FtsUring.clockScan] at hi

/-- A pool of fewer than `2 ^ 31` frames that has a frame that is empty or not pinned finds a
victim. -/
theorem BufferPoolManager.victim_isSome_of_free {bpm : BufferPoolManager}
    (hhand : bpm.clockHand < bpm.poolSize) (hsmall : bpm.poolSize < 2 ^ 31) {i : ℕ} (hi : i < bpm.poolSize)
    (hfree : (bpm.frame i).pageId = invalidPageId ∨ (bpm.frame i).pinCount = 0) :
    bpm.victim.isSome := by
  have hattempts : clockAttempts bpm.poolSize = bpm.poolSize * 2 :=
    Nat.mod_eq_of_lt (by omega)
  have hoffset : (bpm.clockHand + (i + bpm.poolSize - bpm.clockHand)) % bpm.poolSize = i := by
    rw [show bpm.clockHand + (i + bpm.poolSize - bpm.clockHand) = i + bpm.poolSize by omega,
      Nat.add_mod_right, Nat.mod_eq_of_lt hi]
  have hreached : i + bpm.poolSize - bpm.clockHand < clockAttempts bpm.poolSize := by omega
  refine clockScan_isSome hreached hhand ?_
  change (bpm.frame ((bpm.clockHand + _) % bpm.poolSize)).pageId = _ ∨
    (bpm.frame ((bpm.clockHand + _) % bpm.poolSize)).pinCount = 0
  rw [hoffset]
  exact hfree

/-- A well-formed pool of this size finds a victim as well. -/
theorem BufferPoolManager.WellFormed.victim_isSome {bpm : BufferPoolManager} (h : bpm.WellFormed)
    (hsmall : bpm.poolSize < 2 ^ 31) {i : ℕ} (hi : i < bpm.poolSize)
    (hfree : (bpm.frame i).pageId = invalidPageId ∨ (bpm.frame i).pinCount = 0) :
    bpm.victim.isSome := by
  obtain hhand | hzero := h.hand
  · exact victim_isSome_of_free hhand hsmall hi hfree
  · omega

end FtsUring
