import FtsUring.Storage.VfsFollows

/-!
# The io_uring backend

A single read or write is put into the submission queue and submitted, and the caller waits for one completion,
whichever it is. The writes of a batch are queued, submitted together, and waited for as often as there are writes;
the user data of a completion is the frame whose page was written.

The kernel decides what happens during each wait: which of the submitted requests it carries out, in which order,
and with which outcome. The order does not matter: a batch has writes of different pages only. Between two operations
the ring is empty, so the one completion that a single read or write waits for is its own.
-/

namespace FtsUring

open Foundation

/-! ## The rings -/

/-- The kernel and the data file. -/
def vfsDevice : Device VfsRequest IoOutcome (List UInt8) VfsReply := ⟨vfsEffect, vfsReply⟩

/-- The context of the backend: the rings, and the number of writes in the batch. -/
structure UringContext where
  ring : RequestRing VfsRequest VfsReply
  submittedCount : ℕ

/-- The storage over io_uring; the kernel decides what it does in each wait. -/
abbrev UringStorage : Type := VfsStorage UringContext (List (ℕ × IoOutcome))

namespace UringStorage

/-- Change the rings. -/
def setRing (u : UringStorage) (ring : RequestRing VfsRequest VfsReply) : UringStorage :=
  u.setCtx { u.ctx with ring }

/-- `io_uring_get_sqe` and the preparation of the request, if the submission queue has room. -/
def prepare (u : UringStorage) (request : VfsRequest) : Option UringStorage :=
  if u.ctx.ring.queued.length < vfsQueueSize then
    some (u.setRing { u.ctx.ring with queued := u.ctx.ring.queued ++ [request] })
  else none

/-- `io_uring_submit`. -/
def submit (u : UringStorage) : UringStorage := u.setRing u.ctx.ring.submit

/-- `io_uring_wait_cqe` and `io_uring_cqe_seen`, `count` times. -/
def reapCqes (u : UringStorage) (count : ℕ) : Option (List (VfsRequest × VfsReply) × UringStorage) :=
  if u.choices.length < count then none
  else
    (RequestRing.reapCqes vfsDevice (u.choices.take count) (u.ctx.ring, u.storage.host.dataFile)).map fun seen =>
      (seen.1, ((UringStorage.setRing u seen.2.1).setDataFile seen.2.2).setChoices (u.choices.drop count))

end UringStorage

namespace Uring

/-- A single request: queue it, submit, and wait for one completion. -/
def ftsVfsSync (u : UringStorage) (request : VfsRequest) : Option (VfsReply × UringStorage) :=
  match UringStorage.prepare u request with
  | none => some (⟨-1, []⟩, u)
  | some u => ((UringStorage.submit u).reapCqes 1).bind fun seen => seen.1.head?.map fun cqe => (cqe.2, seen.2)

/-- Read from the data file. -/
def ftsVfsReadSync (u : UringStorage) (count offset : ℕ) : Option (VfsReply × UringStorage) :=
  ftsVfsSync u (.read count offset)

/-- Write to the data file. -/
def ftsVfsWriteSync (u : UringStorage) (data : List UInt8) (offset : ℕ) : Option (ℤ × UringStorage) :=
  (ftsVfsSync u (.write data offset none)).map fun result => (result.1.res, result.2)

/-- Queue a write of a batch, if the submission queue has room. -/
def ftsVfsBatchAddWrite (u : UringStorage) (data : List UInt8) (offset userData : ℕ) : ℤ × UringStorage :=
  match UringStorage.prepare u (.write data offset (some userData)) with
  | none => (-1, u)
  | some u => (0, u.setCtx { u.ctx with submittedCount := u.ctx.submittedCount + 1 })

/-- One completion of a batch: its user data is collected if it did not fail and there is room. -/
def collectCqe (maxEvents : ℕ) (completed : List (Option ℕ)) (cqe : VfsRequest × VfsReply) : List (Option ℕ) :=
  if completed.length < maxEvents ∧ 0 ≤ cqe.2.res then completed ++ [cqe.1.userData] else completed

/-- Submit a batch and wait for all its completions. -/
def ftsVfsBatchSubmitAndWait (u : UringStorage) (maxEvents : ℕ) : Option (List (Option ℕ) × UringStorage) :=
  if u.ctx.submittedCount = 0 then some ([], u)
  else
    ((UringStorage.submit u).reapCqes u.ctx.submittedCount).map fun seen =>
      (seen.1.foldl (collectCqe maxEvents) [], seen.2)

end Uring

/-- The io_uring backend. -/
def uringVfs : VfsBackend UringContext (List (ℕ × IoOutcome)) where
  ftsVfsInit := ⟨.idle, 0⟩
  ftsVfsReadSync := Uring.ftsVfsReadSync
  ftsVfsWriteSync := Uring.ftsVfsWriteSync
  ftsVfsBatchBegin ctx := { ctx with submittedCount := 0 }
  ftsVfsBatchAddWrite := Uring.ftsVfsBatchAddWrite
  ftsVfsBatchSubmitAndWait := Uring.ftsVfsBatchSubmitAndWait

/-- Nothing is under way. -/
def UringContext.IsIdle (ctx : UringContext) : Prop := ctx.ring = .idle

/-! ## Single requests -/

/-- The completion that a single request choices for is its own. -/
theorem ftsVfsSync_cases {u result : UringStorage} {choices : List (List (ℕ × IoOutcome))} (hidle : u.ctx.IsIdle)
    {request : VfsRequest} {reply : VfsReply}
    (hresult : Uring.ftsVfsSync (u.setChoices choices) request = some (reply, result)) :
    ∃ outcome rest, reply = vfsReply request outcome u.storage.host.dataFile ∧
      result = (u.setDataFile (vfsEffect request outcome u.storage.host.dataFile)).setChoices rest := by
  obtain ⟨storage, ⟨ring, submittedCount⟩, before⟩ := u
  cases hidle
  have hprepared : UringStorage.prepare ⟨storage, ⟨⟨[], [], []⟩, submittedCount⟩, choices⟩ request =
      some ⟨storage, ⟨⟨[request], [], []⟩, submittedCount⟩, choices⟩ := rfl
  rw [VfsStorage.setChoices, Uring.ftsVfsSync, hprepared] at hresult
  obtain ⟨⟨cqes, next⟩, hreap, hhead⟩ := Option.bind_eq_some_iff.mp hresult
  obtain ⟨cqe, hcqe, heq⟩ := Option.map_eq_some_iff.mp hhead
  obtain ⟨rfl, rfl⟩ := Prod.mk.inj heq
  rw [UringStorage.reapCqes] at hreap
  split_ifs at hreap with hshort
  obtain ⟨⟨cqes', after⟩, hseen, heq⟩ := Option.map_eq_some_iff.mp hreap
  obtain ⟨rfl, rfl⟩ := Prod.mk.inj heq
  obtain ⟨log, hperm, rfl, rfl⟩ := RequestRing.reapCqes_cases
    (by rw [List.length_take]; exact min_eq_left (not_lt.mp hshort)) hseen
  obtain ⟨entry, rfl, rfl⟩ := List.map_eq_singleton_iff.mp (List.perm_singleton.mp hperm.symm)
  cases hcqe
  exact ⟨entry.2, choices.drop 1, rfl, rfl⟩

/-- The kernel may carry out a single request with any outcome. -/
theorem ftsVfsSync_first {u : UringStorage} (hidle : u.ctx.IsIdle) (request : VfsRequest) (outcome : IoOutcome)
    (more : List (List (ℕ × IoOutcome))) :
    Uring.ftsVfsSync (u.setChoices ([[(0, outcome)]] ++ more)) request =
      some (vfsReply request outcome u.storage.host.dataFile,
        (u.setDataFile (vfsEffect request outcome u.storage.host.dataFile)).setChoices more) := by
  obtain ⟨storage, ⟨ring, submittedCount⟩, before⟩ := u
  cases hidle
  rfl

section Operations

variable {u : UringStorage}

/-- A single write. -/
theorem follows_ftsVfsWriteSync (hidle : u.ctx.IsIdle) (data : List UInt8) (offset : ℕ) :
    Follows VfsStorage.storage u (fun u => Uring.ftsVfsWriteSync u data offset)
      (fun st => ((ftsVfsWriteSync st.host data offset).1,
        { st with host := (ftsVfsWriteSync st.host data offset).2 }))
      fun res res' u' => res = res' ∧ u'.ctx.IsIdle ∧ u'.storage.bpm = u.storage.bpm where
  refines choices res result hresult := by
    obtain ⟨⟨reply, after⟩, hsync, heq⟩ := Option.map_eq_some_iff.mp hresult
    obtain ⟨rfl, rfl⟩ := Prod.mk.inj heq
    obtain ⟨outcome, rest, rfl, rfl⟩ := ftsVfsSync_cases hidle hsync
    refine ⟨_, _, rest, [], [outcome], rfl, ⟨rfl, hidle, rfl⟩, fun moreReads moreWrites => ?_⟩
    rw [ftsVfsWriteSync_withOutcomes _ _ _ _ _ none]
    rfl
  realizes reads writes := by
    let request := VfsRequest.write data offset none
    let res := (vfsReply request (writes.headD .full) u.storage.host.dataFile).res
    let after := u.setDataFile (vfsEffect request (writes.headD .full) u.storage.host.dataFile)
    refine ⟨[[(0, writes.headD .full)]], res, res, after, reads, writes.tail,
      ⟨rfl, hidle, rfl⟩, ?_, fun more => ?_⟩
    · rw [ftsVfsWriteSync_withOutcomes _ _ _ _ _ none]
      rfl
    · rw [Uring.ftsVfsWriteSync, ftsVfsSync_first hidle]
      rfl

/-- A page is read. -/
theorem follows_readPageOrFormat (hidle : u.ctx.IsIdle) (pageId : ℕ) :
    Follows VfsStorage.storage u (fun u => uringVfs.readPageOrFormat u pageId)
      (fun st => ((readPageOrFormat st.host pageId).1, { st with host := (readPageOrFormat st.host pageId).2 }))
      fun page page' u' => page = page' ∧ u'.ctx.IsIdle ∧ u'.storage.bpm = u.storage.bpm where
  refines choices page result hresult := by
    obtain ⟨⟨reply, after⟩, hsync, heq⟩ := Option.map_eq_some_iff.mp hresult
    obtain ⟨rfl, rfl⟩ := Prod.mk.inj heq
    obtain ⟨outcome, rest, rfl, rfl⟩ := ftsVfsSync_cases hidle hsync
    refine ⟨_, u, rest, [outcome], [], rfl, ⟨rfl, hidle, rfl⟩, fun moreReads moreWrites => ?_⟩
    rw [readPageOrFormat_withOutcomes]
    rfl
  realizes reads writes := by
    let reply := vfsReply (.read pageSize (pageId * pageSize)) (reads.headD .full) u.storage.host.dataFile
    let page := VfsBackend.pageOfBytes pageId reply.bytes
    refine ⟨[[(0, reads.headD .full)]], page, page, u, reads.tail, writes,
      ⟨rfl, hidle, rfl⟩, ?_, fun more => ?_⟩
    · rw [readPageOrFormat_withOutcomes]
      rfl
    · exact congrArg (Option.map _) (ftsVfsSync_first hidle (.read pageSize (pageId * pageSize)) _ more)

end Operations

/-! ## The writes of a batch -/

/-- Writes of different places may change places. -/
theorem pwriteFile_comm (file : List UInt8) {offset offset' : ℕ} {data data' : List UInt8}
    (hdisjoint : offset + data.length ≤ offset' ∨ offset' + data'.length ≤ offset) :
    pwriteFile (pwriteFile file offset data) offset' data' =
      pwriteFile (pwriteFile file offset' data') offset data := by
  by_cases hdata : data = []
  · simp [pwriteFile, hdata]
  by_cases hdata' : data' = []
  · simp [pwriteFile, hdata']
  apply List.ext_getElem?
  intro i
  simp only [getElem?_pwriteFile _ _ hdata, getElem?_pwriteFile _ _ hdata', length_pwriteFile _ _ hdata,
    length_pwriteFile _ _ hdata']
  split_ifs <;> first
    | rfl
    | omega

/-- The write of the page of a frame. -/
def frameRequest (bpm : BufferPoolManager) (i : ℕ) : VfsRequest :=
  .write (bpm.frame i).pageData.bytes ((bpm.frame i).pageId * pageSize) (some i)

/-- The writes of different pages do not interfere with each other. -/
theorem independent_frameRequest {bpm : BufferPoolManager} {i j : ℕ}
    (hpages : (bpm.frame i).pageId ≠ (bpm.frame j).pageId) :
    vfsDevice.Independent (frameRequest bpm i) (frameRequest bpm j) := by
  intro w w' file
  refine ⟨?_, rfl, rfl⟩
  simp only [vfsDevice, frameRequest, vfsEffect]
  cases w.transferred (bpm.frame i).pageData.bytes.length with
  | none => rfl
  | some moved =>
    cases w'.transferred (bpm.frame j).pageData.bytes.length with
    | none => rfl
    | some moved' =>
      apply pwriteFile_comm
      have hlength : ((bpm.frame i).pageData.bytes.take moved).length ≤ pageSize :=
        (List.length_take_le' _ _).trans (bpm.frame i).pageData.size.le
      have hlength' : ((bpm.frame j).pageData.bytes.take moved').length ≤ pageSize :=
        (List.length_take_le' _ _).trans (bpm.frame j).pageData.size.le
      obtain hlt | hlt := Nat.lt_or_gt_of_ne hpages
      · have hnext := Nat.mul_le_mul_right pageSize (Nat.succ_le_of_lt hlt)
        rw [Nat.succ_mul] at hnext
        omega
      · have hnext := Nat.mul_le_mul_right pageSize (Nat.succ_le_of_lt hlt)
        rw [Nat.succ_mul] at hnext
        omega

/-- The write does not fail. -/
def IoOutcome.succeeds : IoOutcome → Bool
  | .error => false
  | _ => true

/-- The result of a write that does not fail is not negative. -/
theorem vfsReply_frameRequest (bpm : BufferPoolManager) (i : ℕ) (outcome : IoOutcome) (file : List UInt8) :
    0 ≤ (vfsReply (frameRequest bpm i) outcome file).res ↔ outcome.succeeds := by
  cases outcome <;> simp [frameRequest, vfsReply, IoOutcome.transferred, IoOutcome.succeeds]

/-- The frames of a batch with the outcomes of their writes. -/
def batchOutcomes : List ℕ → List IoOutcome → List (ℕ × IoOutcome)
  | [], _ => []
  | i :: rest, writes => (i, writes.headD .full) :: batchOutcomes rest writes.tail

/-- The frames are those of the batch. -/
theorem map_fst_batchOutcomes (queued : List ℕ) (writes : List IoOutcome) :
    (batchOutcomes queued writes).map Prod.fst = queued := by
  induction queued generalizing writes with
  | nil => rfl
  | cons i queued ih => rw [batchOutcomes, List.map_cons, ih]

/-- There is one outcome for each frame. -/
theorem length_batchOutcomes (queued : List ℕ) (writes : List IoOutcome) :
    (batchOutcomes queued writes).length = queued.length := by
  rw [← congrArg List.length (map_fst_batchOutcomes queued writes), List.length_map]

/-- A log of the requests of a batch gives the outcomes. -/
theorem exists_batchOutcomes {ρ : Type} {request : ℕ → ρ} {queued : List ℕ} {log : List (ρ × IoOutcome)}
    (hlog : log.map Prod.fst = queued.map request) (more : List IoOutcome) :
    log = (batchOutcomes queued (log.map Prod.snd ++ more)).map fun entry => (request entry.1, entry.2) := by
  induction queued generalizing log with
  | nil =>
    rw [List.map_eq_nil_iff.mp hlog]
    rfl
  | cons i queued ih =>
    obtain ⟨entry, rest, rfl, hentry, hrest⟩ := List.map_eq_cons_iff.mp hlog
    rw [List.map_cons, List.cons_append, batchOutcomes, List.headD_cons, List.tail_cons, List.map_cons, ← ih hrest,
      ← hentry]

/-- The frames whose writes did not fail. -/
def written (batch : List (ℕ × IoOutcome)) : List ℕ :=
  (batch.filter fun entry => entry.2.succeeds).map Prod.fst

/-- One frame of a batch. -/
theorem written_cons (entry : ℕ × IoOutcome) (batch : List (ℕ × IoOutcome)) :
    written (entry :: batch) = if entry.2.succeeds then entry.1 :: written batch else written batch := by
  cases hsucceeds : entry.2.succeeds
  · simp [written, hsucceeds]
  · simp [written, hsucceeds]

/-- The requests of a batch with their outcomes. -/
def batchLog (bpm : BufferPoolManager) (batch : List (ℕ × IoOutcome)) : List (VfsRequest × IoOutcome) :=
  batch.map fun entry => (frameRequest bpm entry.1, entry.2)

/-- The writes of a batch one after the other. -/
theorem foldl_ftsVfsBatchComplete (st : Storage) {maxEvents : ℕ} {queued : List ℕ} {completed : List ℕ}
    (hroom : completed.length + queued.length ≤ maxEvents) (reads writes : List IoOutcome) :
    queued.foldl (ftsVfsBatchComplete st.bpm maxEvents) (completed, (st.withOutcomes reads writes).host) =
      (completed ++ written (batchOutcomes queued writes),
        { st.host with
          dataFile :=
            (vfsDevice.performAll (batchLog st.bpm (batchOutcomes queued writes)) st.host.dataFile).2
          pageReads := reads
          pageWrites := writes.drop queued.length }) := by
  induction queued generalizing completed writes st with
  | nil =>
    rw [List.foldl_nil, batchOutcomes]
    exact Prod.ext (List.append_nil _).symm rfl
  | cons i queued ih =>
    rw [List.length_cons] at hroom
    let file := vfsEffect (frameRequest st.bpm i) (writes.headD .full) st.host.dataFile
    let next : Storage := { st with host := { st.host with dataFile := file } }
    have hstep : ftsVfsBatchComplete st.bpm maxEvents (completed, (st.withOutcomes reads writes).host) i =
        (completed ++ written [(i, writes.headD .full)], (next.withOutcomes reads writes.tail).host) := by
      simp only [ftsVfsBatchComplete, ftsVfsWriteSync_withOutcomes st reads writes _ _ (some i)]
      have hres := vfsReply_frameRequest st.bpm i (writes.headD .full) st.host.dataFile
      rw [frameRequest] at hres
      by_cases hsucceeds : (writes.headD .full).succeeds
      · rw [if_pos ⟨by omega, hres.mpr hsucceeds⟩, written_cons, if_pos hsucceeds]
        rfl
      · rw [if_neg fun h => hsucceeds (hres.mp h.2), written_cons, if_neg hsucceeds]
        exact Prod.ext (List.append_nil _).symm rfl
    have hroom' : (completed ++ written [(i, writes.headD .full)]).length + queued.length ≤ maxEvents := by
      have hone : (written [(i, writes.headD .full)]).length ≤ 1 := by
        rw [written, List.length_map]
        exact List.length_filter_le _ _
      rw [List.length_append]
      omega
    rw [List.foldl_cons, hstep, show st.bpm = next.bpm from rfl, ih next hroom' writes.tail]
    refine Prod.ext ?_ ?_
    · dsimp only
      rw [List.append_assoc, batchOutcomes, written, written, written, ← List.map_append, ← List.filter_append,
        List.singleton_append]
    · simp only [List.length_cons, batchOutcomes, batchLog, List.map_cons, Device.performAll, List.drop_tail]
      rfl

/-- Marking frames clean in another order. -/
theorem Storage.markClean_comm (st : Storage) (i j : ℕ) :
    (st.markClean i).markClean j = (st.markClean j).markClean i := by
  by_cases hij : i = j
  · rw [hij]
  · have hi : (st.markClean j).bpm.frame i = st.bpm.frame i :=
      st.bpm.frame_setFrame_of_ne (Ne.symm hij) _
    have hj : (st.markClean i).bpm.frame j = st.bpm.frame j :=
      st.bpm.frame_setFrame_of_ne hij _
    rw [markClean.eq_1 (st.markClean i), markClean.eq_1 (st.markClean j), hi, hj]
    simp only [markClean, BufferPoolManager.setFrame, List.set_comm _ _ hij]

/-- The completed frames may be marked clean in any order. -/
theorem foldl_markCompleted_perm {completed : List (Option ℕ)} {frames : List ℕ}
    (hperm : completed.Perm (frames.map some)) (st : Storage) :
    completed.foldl VfsBackend.markCompleted st = frames.foldl Storage.markClean st := by
  rw [hperm.foldl_eq' (fun x hx y hy z => ?_), List.foldl_map]
  · rfl
  · have hsome : ∀ entry ∈ completed, ∃ i, some i = entry := fun entry hentry => by
      obtain ⟨i, -, hi⟩ := List.mem_map.mp (hperm.subset hentry)
      exact ⟨i, hi⟩
    obtain ⟨i, rfl⟩ := hsome x hx
    obtain ⟨j, rfl⟩ := hsome y hy
    exact z.markClean_comm i j

/-- The user data that a batch collects. -/
theorem foldl_collectCqe {maxEvents : ℕ} {cqes : List (VfsRequest × VfsReply)} {completed : List (Option ℕ)}
    (hroom : completed.length + cqes.length ≤ maxEvents) :
    cqes.foldl (Uring.collectCqe maxEvents) completed =
      completed ++ (cqes.filter fun cqe => 0 ≤ cqe.2.res).map fun cqe => cqe.1.userData := by
  induction cqes generalizing completed with
  | nil => exact (List.append_nil _).symm
  | cons cqe cqes ih =>
    rw [List.length_cons] at hroom
    have hlt : completed.length < maxEvents := by omega
    rw [List.foldl_cons, Uring.collectCqe]
    by_cases hres : 0 ≤ cqe.2.res
    · rw [if_pos ⟨hlt, hres⟩, ih (by rw [List.length_append, List.length_singleton]; omega), List.append_assoc,
        List.filter_cons_of_pos (by simpa using hres), List.map_cons, List.singleton_append]
    · rw [if_neg fun h => hres h.2, ih (by omega), List.filter_cons_of_neg (by simpa using hres)]

/-- The frames of the completions of a batch that did not fail. -/
theorem map_userData_performAll (bpm : BufferPoolManager) (batch : List (ℕ × IoOutcome)) (file : List UInt8) :
    ((vfsDevice.performAll (batchLog bpm batch) file).1.filter fun cqe => 0 ≤ cqe.2.res).map
      (fun cqe => cqe.1.userData) = (written batch).map some := by
  induction batch generalizing file with
  | nil => rfl
  | cons entry batch ih =>
    have hkept : decide (0 ≤ (vfsDevice.reply (frameRequest bpm entry.1) entry.2 file).res) = entry.2.succeeds := by
      rw [Bool.eq_iff_iff, decide_eq_true_eq]
      exact vfsReply_frameRequest bpm entry.1 entry.2 file
    rw [batchLog, List.map_cons, Device.performAll, written_cons]
    dsimp only
    rw [List.filter_cons]
    simp only [hkept]
    by_cases hsucceeds : entry.2.succeeds
    · rw [if_pos hsucceeds, if_pos hsucceeds, List.map_cons, List.map_cons]
      exact congrArg (some entry.1 :: ·) (ih _)
    · rw [if_neg hsucceeds, if_neg hsucceeds]
      exact ih _

/-- The completions of a batch mark the frames clean whose writes did not fail; none is dropped, as there is room
for more than a batch. -/
theorem foldl_markCompleted_collected {bpm : BufferPoolManager} {batch : List (ℕ × IoOutcome)} {file : List UInt8}
    {cqes : List (VfsRequest × VfsReply)} (hshort : batch.length ≤ vfsQueueSize)
    (hperm : cqes.Perm (vfsDevice.performAll (batchLog bpm batch) file).1) (st : Storage) :
    (cqes.foldl (Uring.collectCqe vfsQueueSize) []).foldl VfsBackend.markCompleted st =
      (written batch).foldl Storage.markClean st := by
  apply foldl_markCompleted_perm
  have hroom : ([] : List (Option ℕ)).length + cqes.length ≤ vfsQueueSize := by
    have hreplies := congrArg List.length (vfsDevice.performAll_map_fst (batchLog bpm batch) file)
    rw [List.length_map, batchLog, List.length_map, List.length_map, ← batchLog] at hreplies
    rw [List.length_nil, Nat.zero_add, hperm.length_eq, hreplies]
    exact hshort
  rw [foldl_collectCqe hroom, List.nil_append, ← map_userData_performAll bpm batch file]
  exact (hperm.filter _).map _

/-! ## Submitting a batch -/

/-- The storage after the writes of a batch. -/
def Storage.afterBatch (st : Storage) (batch : List (ℕ × IoOutcome)) : Storage :=
  let dataFile := (vfsDevice.performAll (batchLog st.bpm batch) st.host.dataFile).2
  (written batch).foldl Storage.markClean { st with host := { st.host with dataFile } }

/-- Marking frames clean does not touch the outcomes. -/
theorem Storage.foldl_markClean_withOutcomes (st : Storage) (frames : List ℕ) (reads writes : List IoOutcome) :
    frames.foldl markClean (st.withOutcomes reads writes) =
      (frames.foldl markClean st).withOutcomes reads writes := by
  induction frames generalizing st with
  | nil => rfl
  | cons i frames ih =>
    rw [List.foldl_cons, List.foldl_cons, ← ih]
    rfl

/-- A batch is submitted when its writes are carried out one after the other. -/
theorem submitBatch_withOutcomes (st : Storage) {queued : List ℕ} (hlength : queued.length ≤ vfsQueueSize)
    (reads writes : List IoOutcome) :
    (st.withOutcomes reads writes).submitBatch queued =
      (st.afterBatch (batchOutcomes queued writes)).withOutcomes reads (writes.drop queued.length) := by
  have hroom : ([] : List ℕ).length + queued.length ≤ vfsQueueSize := by rwa [List.length_nil, Nat.zero_add]
  have hbatch := foldl_ftsVfsBatchComplete st hroom reads writes
  rw [List.nil_append] at hbatch
  rw [Storage.submitBatch, ftsVfsBatchSubmitAndWait, Storage.bpm_withOutcomes, hbatch, Storage.afterBatch,
    ← Storage.foldl_markClean_withOutcomes]
  rfl

/-- The queued writes of a batch. -/
structure UringStorage.Queues (u : UringStorage) (queued : List ℕ) : Prop where
  ring : u.ctx.ring = ⟨queued.map (frameRequest u.storage.bpm), [], []⟩
  count : u.ctx.submittedCount = queued.length
  distinct : queued.Pairwise fun i j => (u.storage.bpm.frame i).pageId ≠ (u.storage.bpm.frame j).pageId
  short : queued.length ≤ vfsQueueSize

/-- The rings after a batch. -/
def UringStorage.afterBatch (u : UringStorage) (batch : List (ℕ × IoOutcome)) : UringStorage :=
  UringStorage.setRing (u.setStorage (u.storage.afterBatch batch)) .idle

section Batch

variable {u result : UringStorage} {queued : List ℕ}

/-- Submitting a batch and waiting for its completions. -/
theorem submitBatch_eq (hqueues : u.Queues queued) (hsome : queued ≠ []) (choices : List (List (ℕ × IoOutcome))) :
    uringVfs.submitBatch (u.setChoices choices) =
      if choices.length < queued.length then none
      else
        (RequestRing.reapCqes vfsDevice (choices.take queued.length)
            (⟨[], queued.map (frameRequest u.storage.bpm), []⟩, u.storage.host.dataFile)).map fun seen =>
          let after := ((UringStorage.setRing u seen.2.1).setDataFile seen.2.2).setChoices (choices.drop queued.length)
          after.setStorage ((seen.1.foldl (Uring.collectCqe vfsQueueSize) []).foldl VfsBackend.markCompleted
            after.storage) := by
  obtain ⟨storage, ⟨ring, submittedCount⟩, before⟩ := u
  obtain ⟨hring, hcount, -, -⟩ := hqueues
  change ring = ⟨queued.map (frameRequest storage.bpm), [], []⟩ at hring
  change submittedCount = queued.length at hcount
  subst hring hcount
  have hpositive : queued.length ≠ 0 := fun hzero => hsome (List.eq_nil_of_length_eq_zero hzero)
  let start : UringStorage :=
    ⟨storage, ⟨⟨queued.map (frameRequest storage.bpm), [], []⟩, queued.length⟩, choices⟩
  have hsubmit : Uring.ftsVfsBatchSubmitAndWait start vfsQueueSize =
      ((UringStorage.submit start).reapCqes queued.length).map fun seen =>
        (seen.1.foldl (Uring.collectCqe vfsQueueSize) [], seen.2) :=
    if_neg hpositive
  change (Uring.ftsVfsBatchSubmitAndWait start vfsQueueSize).map _ = _
  rw [hsubmit]
  by_cases hfew : choices.length < queued.length
  · have hreap : start.submit.reapCqes queued.length = none := if_pos hfew
    rw [hreap, if_pos hfew]
    rfl
  · have hreap : start.submit.reapCqes queued.length =
        (RequestRing.reapCqes vfsDevice (choices.take queued.length)
          (⟨[], queued.map (frameRequest storage.bpm), []⟩, storage.host.dataFile)).map fun seen =>
            (seen.1, ((UringStorage.setRing start seen.2.1).setDataFile seen.2.2).setChoices
              (choices.drop queued.length)) :=
      if_neg hfew
    rw [hreap, if_neg hfew, Option.map_map, Option.map_map]
    rfl

/-- A batch that is submitted, whatever the order of its completions. -/
theorem submitBatch_cases (hqueues : u.Queues queued) (hsome : queued ≠ []) {choices : List (List (ℕ × IoOutcome))}
    (hresult : uringVfs.submitBatch (u.setChoices choices) = some result) :
    ∃ (writes : List IoOutcome) (rest : List (List (ℕ × IoOutcome))), writes.length = queued.length ∧ ∀ more,
      result = (u.afterBatch (batchOutcomes queued (writes ++ more))).setChoices rest := by
  rw [submitBatch_eq hqueues hsome] at hresult
  split_ifs at hresult with hfew
  obtain ⟨⟨cqes, ring, file⟩, hseen, rfl⟩ := Option.map_eq_some_iff.mp hresult
  have hindependent : (queued.map (frameRequest u.storage.bpm)).Pairwise vfsDevice.Independent :=
    List.pairwise_map.mpr (hqueues.distinct.imp independent_frameRequest)
  obtain ⟨log, hlog, hperm, heq⟩ := RequestRing.reapCqes_inOrder hindependent
    (by rw [List.length_take, List.length_map]; exact min_eq_left (not_lt.mp hfew)) hseen
  cases heq
  have hlength : log.length = queued.length := by
    have hsame := congrArg List.length hlog
    rwa [List.length_map, List.length_map] at hsame
  refine ⟨log.map Prod.snd, choices.drop queued.length, by rw [List.length_map, hlength], fun more => ?_⟩
  have hall : log = batchLog u.storage.bpm (batchOutcomes queued (log.map Prod.snd ++ more)) :=
    exists_batchOutcomes hlog more
  rw [hall] at hperm
  have hshort : (batchOutcomes queued (log.map Prod.snd ++ more)).length ≤ vfsQueueSize := by
    rw [length_batchOutcomes]
    exact hqueues.short
  rw [UringStorage.afterBatch, Storage.afterBatch, ← hall]
  dsimp only
  rw [← foldl_markCompleted_collected hshort hperm]
  rfl

/-- The kernel may carry out the writes of a batch in their order, with any outcomes. -/
theorem submitBatch_first (hqueues : u.Queues queued) (hsome : queued ≠ []) (writes : List IoOutcome)
    (more : List (List (ℕ × IoOutcome))) :
    uringVfs.submitBatch (u.setChoices ((batchOutcomes queued writes).map (fun entry => [(0, entry.2)]) ++ more)) =
      some ((u.afterBatch (batchOutcomes queued writes)).setChoices more) := by
  have hlength : ((batchOutcomes queued writes).map fun entry => [(0, entry.2)]).length = queued.length := by
    rw [List.length_map, length_batchOutcomes]
  have hfirst := RequestRing.reapCqes_first (d := vfsDevice) (batchLog u.storage.bpm (batchOutcomes queued writes)) []
    u.storage.host.dataFile
  have hrequests : (batchLog u.storage.bpm (batchOutcomes queued writes)).map Prod.fst =
      queued.map (frameRequest u.storage.bpm) := by
    conv_rhs => rw [← map_fst_batchOutcomes queued writes, List.map_map]
    rw [batchLog, List.map_map]
    rfl
  have hchoices : ((batchLog u.storage.bpm (batchOutcomes queued writes)).map fun entry => [(0, entry.2)]) =
      (batchOutcomes queued writes).map fun entry => [(0, entry.2)] := by
    rw [batchLog, List.map_map]
    rfl
  rw [hrequests, hchoices] at hfirst
  rw [submitBatch_eq hqueues hsome, if_neg (by rw [List.length_append, hlength]; omega), List.take_left' hlength,
    List.drop_left' hlength, hfirst, Option.map_some]
  have hshort : (batchOutcomes queued writes).length ≤ vfsQueueSize := by
    rw [length_batchOutcomes]
    exact hqueues.short
  dsimp only
  rw [foldl_markCompleted_collected hshort (List.Perm.refl _)]
  rfl

/-- The frames are kept by a batch. -/
theorem keepsFrames_afterBatch (st : Storage) (batch : List (ℕ × IoOutcome)) :
    KeepsFrames st.bpm (st.afterBatch batch).bpm := by
  let dataFile := (vfsDevice.performAll (batchLog st.bpm batch) st.host.dataFile).2
  exact KeepsFrames.markClean_all (written batch) { st with host := { st.host with dataFile } }

/-- A batch is submitted. -/
theorem follows_submitBatch (hqueues : u.Queues queued) (hsome : queued ≠ []) :
    Follows VfsStorage.storage u (fun u => (uringVfs.submitBatch u).map fun u => ((), u))
      (fun st => ((), st.submitBatch queued))
      fun _ _ u' => u'.ctx.IsIdle ∧ KeepsFrames u.storage.bpm u'.storage.bpm where
  refines choices _ result hresult := by
    obtain ⟨after, hafter, heq⟩ := Option.map_eq_some_iff.mp hresult
    obtain ⟨-, rfl⟩ := Prod.mk.inj heq
    obtain ⟨writes, rest, hlength, hbatch⟩ := submitBatch_cases hqueues hsome hafter
    refine ⟨(), u.afterBatch (batchOutcomes queued (writes ++ [])), rest, [], writes, hbatch [],
      ⟨rfl, keepsFrames_afterBatch _ _⟩, fun moreReads moreWrites => ?_⟩
    rw [submitBatch_withOutcomes _ hqueues.short, List.drop_left' hlength, List.nil_append]
    have hsame := (hbatch []).symm.trans (hbatch moreWrites)
    have hstorage : (u.storage.afterBatch (batchOutcomes queued (writes ++ []))) =
        u.storage.afterBatch (batchOutcomes queued (writes ++ moreWrites)) :=
      congrArg VfsStorage.storage hsame
    rw [← hstorage]
    rfl
  realizes reads writes := by
    refine ⟨(batchOutcomes queued writes).map fun entry => [(0, entry.2)], (), (),
      u.afterBatch (batchOutcomes queued writes), reads, writes.drop queued.length,
      ⟨rfl, keepsFrames_afterBatch _ _⟩, ?_, fun more => ?_⟩
    · rw [submitBatch_withOutcomes _ hqueues.short]
      rfl
    · rw [submitBatch_first hqueues hsome]
      rfl

/-! ## Flushing the pool -/

/-- Nothing is queued when a batch begins. -/
theorem UringContext.IsIdle.queues_begin (hidle : u.ctx.IsIdle) : UringStorage.Queues (uringVfs.beginBatch u) [] :=
  ⟨hidle, rfl, List.Pairwise.nil, Nat.zero_le _⟩

/-- What the flush loop keeps. -/
structure FlushesFrom (bpm : BufferPoolManager) (submitted : ℕ) (queued : List ℕ) (u : UringStorage) : Prop where
  count : submitted = queued.length
  queues : u.Queues queued
  below : queued.length < flushBatchLimit
  frames : KeepsFrames bpm u.storage.bpm

/-- The queue with the write of another frame. -/
def UringStorage.queue (u : UringStorage) (queued : List ℕ) (i : ℕ) : UringStorage :=
  u.setCtx ⟨⟨(queued ++ [i]).map (frameRequest u.storage.bpm), [], []⟩, (queued ++ [i]).length⟩

/-- As long as there is room, a write is queued. -/
theorem ftsVfsBatchAddWrite_queues (hqueues : u.Queues queued) (hroom : queued.length < vfsQueueSize) (i : ℕ)
    (choices : List (List (ℕ × IoOutcome))) :
    uringVfs.ftsVfsBatchAddWrite (u.setChoices choices) (u.storage.bpm.frame i).pageData.bytes
      ((u.storage.bpm.frame i).pageId * pageSize) i = (0, (u.queue queued i).setChoices choices) := by
  obtain ⟨storage, ⟨ring, submittedCount⟩, before⟩ := u
  obtain ⟨hring, hcount, -, -⟩ := hqueues
  change ring = ⟨queued.map (frameRequest storage.bpm), [], []⟩ at hring
  change submittedCount = queued.length at hcount
  subst hring hcount
  let start : UringStorage :=
    ⟨storage, ⟨⟨queued.map (frameRequest storage.bpm), [], []⟩, queued.length⟩, choices⟩
  have hprepare : UringStorage.prepare start (frameRequest storage.bpm i) =
      some (UringStorage.setRing start
        ⟨queued.map (frameRequest storage.bpm) ++ [frameRequest storage.bpm i], [], []⟩) :=
    if_pos (by rwa [List.length_map])
  change (match UringStorage.prepare start (frameRequest storage.bpm i) with
    | none => ((-1 : ℤ), start)
    | some u => (0, u.setCtx { u.ctx with submittedCount := u.ctx.submittedCount + 1 })) = _
  rw [hprepare, UringStorage.queue, List.map_append, List.length_append]
  rfl

/-- One frame of the flush loop, that is not queued yet. -/
theorem follows_flushAllStep (hqueues : u.Queues queued) (hbelow : queued.length < flushBatchLimit)
    (hdistinct : u.storage.bpm.DistinctPages) {i : ℕ} (hnew : i ∉ queued) :
    Follows VfsStorage.storage u (fun u => uringVfs.flushAllStep queued.length u i)
      (fun st => ((flushAllStep (st, queued) i).2, (flushAllStep (st, queued) i).1))
      fun submitted queued' u' =>
        FlushesFrom u.storage.bpm submitted queued' u' ∧ ∀ j ∈ queued', j ∈ queued ++ [i] := by
  have hmodel := fun st => @flushAllStep_eq st queued hbelow i
  by_cases hwrite : (u.storage.bpm.frame i).pageId ≠ invalidPageId ∧ (u.storage.bpm.frame i).isDirty ∧
      0 ≤ u.storage.bpm.diskFd
  swap
  · -- the page needs no write
    have hdone : Follows VfsStorage.storage u (fun u => some (queued.length, u)) (fun st => (queued, st))
        fun submitted queued' u' =>
          FlushesFrom u.storage.bpm submitted queued' u' ∧ ∀ j ∈ queued', j ∈ queued ++ [i] :=
      .done ⟨⟨rfl, hqueues, hbelow, .refl _⟩, fun j hj => List.mem_append_left _ hj⟩
    refine hdone.congr (fun choices => if_neg hwrite) fun reads writes => ?_
    rw [hmodel, Storage.bpm_withOutcomes, if_neg hwrite]
  -- the write is queued
  have hlength : (queued ++ [i]).length = queued.length + 1 := by
    rw [List.length_append, List.length_singleton]
  have hadded : (u.queue queued i).Queues (queued ++ [i]) := by
    refine ⟨rfl, rfl, ?_, ?_⟩
    · refine List.pairwise_append.mpr ⟨hqueues.distinct, List.pairwise_singleton _ _, fun j hj k hk => ?_⟩
      rw [List.mem_singleton.mp hk]
      intro hsame
      exact hnew (hdistinct i j hwrite.1 hsame.symm ▸ hj)
    · rw [hlength]
      exact (Nat.succ_le_of_lt hbelow).trans (by decide)
  have hstep : ∀ choices, uringVfs.flushAllStep queued.length (u.setChoices choices) i =
      if flushBatchLimit ≤ queued.length + 1 then
        (uringVfs.submitBatch ((u.queue queued i).setChoices choices)).map fun u => (0, uringVfs.beginBatch u)
      else some (queued.length + 1, (u.queue queued i).setChoices choices) := by
    intro choices
    rw [VfsBackend.flushAllStep, VfsStorage.storage_setChoices]
    dsimp only
    rw [if_pos hwrite, ftsVfsBatchAddWrite_queues hqueues (hbelow.trans (by decide)), if_pos rfl, Option.bind_some]
  by_cases hfull : flushBatchLimit ≤ queued.length + 1
  · -- the batch is submitted, and a new one begins
    have hsubmitted : Follows VfsStorage.storage (u.queue queued i)
        (fun u => ((uringVfs.submitBatch u).map fun u => ((), u)).map fun result =>
          (0, uringVfs.beginBatch result.2))
        (fun st => (([] : List ℕ), st.submitBatch (queued ++ [i])))
        fun submitted queued' u' =>
          FlushesFrom u.storage.bpm submitted queued' u' ∧ ∀ j ∈ queued', j ∈ queued ++ [i] :=
      @Follows.map _ _ _ _ _ _ _ _ _ _ _ (fun _ u => (0, uringVfs.beginBatch u)) (fun _ st => ([], st)) _
        (follows_submitBatch hadded (by simp)) fun _ _ u' h =>
          .turn uringVfs.beginBatch id (fun _ => rfl) (fun _ _ => rfl)
            ⟨⟨rfl, h.1.queues_begin, by decide, h.2⟩, by simp⟩
    refine (hsubmitted.start (u := u) (p := fun u => uringVfs.flushAllStep queued.length u i) rfl
      fun choices => ?_).congr
      (fun _ => rfl) fun reads writes => ?_
    · rw [hstep, if_pos hfull, Option.map_map]
      rfl
    · rw [hmodel, Storage.bpm_withOutcomes, if_pos hwrite, if_pos (by rwa [hlength])]
  · have hdone : Follows VfsStorage.storage (u.queue queued i) (fun u => some (queued.length + 1, u))
        (fun st => (queued ++ [i], st)) fun submitted queued' u' =>
          FlushesFrom u.storage.bpm submitted queued' u' ∧ ∀ j ∈ queued', j ∈ queued ++ [i] :=
      .done ⟨⟨hlength.symm, hadded, by rw [hlength]; exact not_le.mp hfull, .refl _⟩, fun j hj => hj⟩
    refine (hdone.start (u := u) (p := fun u => uringVfs.flushAllStep queued.length u i) rfl fun choices => ?_).congr
      (fun _ => rfl) fun reads writes => ?_
    · rw [hstep, if_neg hfull]
    · rw [hmodel, Storage.bpm_withOutcomes, if_pos hwrite, if_neg (by rwa [hlength])]

/-- The flush loop. -/
theorem follows_flushAllLoop {indices : List ℕ} (hqueues : u.Queues queued) (hbelow : queued.length < flushBatchLimit)
    (hdistinct : u.storage.bpm.DistinctPages) (hnodup : indices.Nodup) (hnew : ∀ j ∈ queued, j ∉ indices) :
    Follows VfsStorage.storage u (fun u => uringVfs.flushAllLoop indices queued.length u)
      (fun st => ((indices.foldl flushAllStep (st, queued)).2, (indices.foldl flushAllStep (st, queued)).1))
      (FlushesFrom u.storage.bpm) := by
  induction indices generalizing u queued with
  | nil => exact .done ⟨rfl, hqueues, hbelow, .refl _⟩
  | cons i rest ih =>
    obtain ⟨hnotIn, hrest⟩ := List.nodup_cons.mp hnodup
    have hloop := @Follows.bind _ _ _ _ _ _ _ _ _ _ _ (fun submitted u => uringVfs.flushAllLoop rest submitted u)
      (fun queued st => ((rest.foldl flushAllStep (st, queued)).2, (rest.foldl flushAllStep (st, queued)).1))
      (FlushesFrom u.storage.bpm)
      (follows_flushAllStep hqueues hbelow hdistinct fun hmem => hnew i hmem List.mem_cons_self)
      fun submitted queued' u' h => by
        obtain ⟨⟨rfl, hqueues', hbelow', hframes⟩, hsubset⟩ := h
        have hnew' : ∀ j ∈ queued', j ∉ rest := by
          intro j hj hmem
          obtain hold | hi := List.mem_append.mp (hsubset j hj)
          · exact hnew j hold (List.mem_cons_of_mem _ hmem)
          · exact hnotIn (List.mem_singleton.mp hi ▸ hmem)
        have hdistinct' := hdistinct.of_pageId hframes.pageId
        exact (ih hqueues' hbelow' hdistinct' hrest hnew').mono fun _ _ _ h =>
          ⟨h.count, h.queues, h.below, hframes.trans h.frames⟩
    exact hloop.congr (fun _ => rfl) fun _ _ => rfl

/-- The flush loop and the last batch. -/
theorem follows_flushFrames (hidle : u.ctx.IsIdle) (hdistinct : u.storage.bpm.DistinctPages) :
    Follows VfsStorage.storage u (fun u => (uringVfs.flushFrames u).map fun u => ((), u))
      (fun st => ((), st.flushFrames))
      fun _ _ u' => u'.ctx.IsIdle := by
  have hloop := follows_flushAllLoop (u := uringVfs.beginBatch u) hidle.queues_begin
    (by decide : ([] : List ℕ).length < flushBatchLimit) hdistinct (List.nodup_range (n := u.storage.bpm.poolSize))
    fun _ hmem => absurd hmem List.not_mem_nil
  have hlast := @Follows.bind _ _ _ _ _ _ _ _ _ _ _
    (fun submitted u => if 0 < submitted then (uringVfs.submitBatch u).map fun u => ((), u) else some ((), u))
    (fun queued st => ((), if queued.length > 0 then st.submitBatch queued else st)) (fun _ _ u' => u'.ctx.IsIdle) hloop
    fun submitted queued u' h => by
      obtain ⟨rfl, hqueues, -, -⟩ := h
      by_cases hsome : 0 < queued.length
      · simp only [if_pos hsome]
        exact (follows_submitBatch hqueues (List.ne_nil_of_length_pos hsome)).mono fun _ _ _ h => h.1
      · have hnil : queued = [] := List.eq_nil_of_length_eq_zero (by omega)
        simp only [if_neg hsome]
        exact .done (by rw [UringContext.IsIdle, hqueues.ring, hnil]; rfl)
  refine (hlast.start (u := u) (p := fun u => (uringVfs.flushFrames u).map fun u => ((), u)) rfl
    fun choices => ?_).congr
    (fun _ => rfl) fun reads writes => rfl
  rw [VfsBackend.flushFrames, Option.map_bind]
  refine Option.bind_congr fun result _ => ?_
  rw [Function.comp_apply, apply_ite (Option.map _)]
  rfl

end Batch

/-! ## Runs -/

/-- The order of completions does not matter to single calls and to the flush of a pool. -/
theorem sequential_uringVfs (limit : ℕ) : SequentialVfs uringVfs limit UringContext.IsIdle where
  init := rfl
  write _ hidle := follows_ftsVfsWriteSync hidle
  read _ hidle := follows_readPageOrFormat hidle
  flush _ hidle hdistinct _ := follows_flushFrames hidle hdistinct

/-- Whatever the kernel does in the waits, a run of the pool over io_uring is a run of the pool whose reads and writes
are made one after the other at once, with the same answers, frames and files, and it leaves nothing under way. And
every run of the latter is one over io_uring. -/
theorem uringRun_iff {st : Storage} (hsound : st.bpm.Sound) (hsmall : st.bpm.poolSize < 2 ^ 31)
    {calls : List (PoolOp × List IoOutcome)} (hpages : ∀ call ∈ calls, call.1.FetchesPages) :
    (∀ steps answers final, steps.map VfsStep.call = calls →
      uringVfs.run (uringVfs.init st) steps = some (answers, final) →
        final.ctx.IsIdle ∧ ∃ poolSteps : List PoolStep, poolSteps.map PoolStep.call = calls ∧
          (st.run poolSteps).1 = answers ∧ (st.run poolSteps).2.settled = final.storage.settled) ∧
    ∀ poolSteps : List PoolStep, poolSteps.map PoolStep.call = calls →
      ∃ (steps : List (VfsStep (List (ℕ × IoOutcome)))) (final : UringStorage), steps.map VfsStep.call = calls ∧
        uringVfs.run (uringVfs.init st) steps = some ((st.run poolSteps).1, final) ∧
          final.storage.settled = (st.run poolSteps).2.settled :=
  (sequential_uringVfs st.bpm.poolSize).runs hsound hsmall le_rfl hpages

/-- Two new pages become dirty, and the pool is flushed. -/
def twoPagesFlushed : List (PoolOp × List IoOutcome) :=
  [(.fetch 0, []), (.unpin 0 true .normal, []), (.fetch 1, []), (.unpin 1 true .normal, []), (.flushAll, [])]

/-- The pages may be fetched. -/
theorem fetchesPages_twoPagesFlushed : ∀ call ∈ twoPagesFlushed, call.1.FetchesPages := by
  intro call hcall
  simp only [twoPagesFlushed, List.mem_cons, List.not_mem_nil, or_false] at hcall
  obtain rfl | rfl | rfl | rfl | rfl := hcall
  · exact (by decide : 0 ≠ invalidPageId)
  · trivial
  · exact (by decide : 1 ≠ invalidPageId)
  · trivial
  · trivial

/-- The flush of two dirty pages over io_uring. -/
theorem uringRun_iff_flush :
    ∃ (steps : List (VfsStep (List (ℕ × IoOutcome)))) (final : UringStorage),
      steps.map VfsStep.call = twoPagesFlushed ∧
        uringVfs.run (uringVfs.init (bufferPoolInit 3 none Host.empty 2)) steps =
          some ([.frame (some 0), .done, .frame (some 1), .done, .done], final) ∧ final.ctx.IsIdle := by
  have hsound := @sound_bufferPoolInit 3 none Host.empty 2 (by decide)
  have hruns := uringRun_iff hsound (by decide) fetchesPages_twoPagesFlushed
  obtain ⟨steps, final, hcalls, hrun, -⟩ :=
    hruns.2 (twoPagesFlushed.map fun call => ⟨call.1, [], [], call.2⟩) rfl
  exact ⟨steps, final, hcalls, hrun, (hruns.1 steps _ final hcalls hrun).1⟩

/-- The kernel completes the two writes of a batch in the other order. -/
example : (uringVfs.run (uringVfs.init (bufferPoolInit 3 none Host.empty 2))
    [⟨.fetch 0, [[(0, .full)]], []⟩, ⟨.unpin 0 true .normal, [], []⟩, ⟨.fetch 1, [[(0, .full)]], []⟩,
      ⟨.unpin 1 true .normal, [], []⟩,
      ⟨.flushAll, [[(1, .error), (0, .error)], []], []⟩]).isSome = true := by rfl

end FtsUring
