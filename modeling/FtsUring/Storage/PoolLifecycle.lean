import FtsUring.Storage.PoolTransparency

/-!
# Fresh pools and flushed pools

The two ends of a run on a buffer pool without I/O errors. A new pool represents the array of the
pages in its data file, and after `bufferPoolFlushAll` the data file holds every written page
whose content is certain.
-/

namespace FtsUring

open Foundation

/-! ## New pools -/

/-- The pages in the data file of a host, none of them pinned. -/
def PageArray.ofHost (host : Host) (wal : Option WALManager) (room nextPageId : ℕ) : PageArray where
  content := fun pageId => {host.diskPage pageId}
  extent := host.dataFile.length / pageSize
  pins := []
  touched := ∅
  room := room
  wal := wal
  walFile := host.walFile
  nextPageId := nextPageId

/-- A new pool represents the pages in the data file. -/
theorem represents_bufferPoolInit {host : Host} (hfree : host.FaultFree) {diskFd : ℤ}
    (hopen : 0 ≤ diskFd) (wal : Option WALManager) {poolSize room : ℕ} (hsmall : poolSize < 2 ^ 31)
    (hroom : room ≤ poolSize) {nextPageId : ℕ} (hcounter : nextPageId < 2 ^ 32) :
    Represents ⟨bufferPoolInit diskFd wal host poolSize, nextPageId⟩
      (PageArray.ofHost host wal room nextPageId) := by
  have hempty : ∀ i, (bufferPoolInit diskFd wal host poolSize).bpm.frame i = Frame.empty :=
    BufferPoolManager.frame_replicate poolSize 0 diskFd
  have hclean : ∀ pageId, ¬(bufferPoolInit diskFd wal host poolSize).bpm.Dirty pageId := by
    rintro pageId ⟨i, hi, -⟩
    rw [hempty] at hi
    exact absurd hi (by decide)
  have hsize : (bufferPoolInit diskFd wal host poolSize).bpm.poolSize = poolSize :=
    List.length_replicate
  have hpositive : 0 < pageSize := by decide
  exact
    { faultFree := hfree
      opened := hopen
      wellFormed := BufferPoolManager.wellFormed_replicate diskFd (by omega)
      small := hsize.symm ▸ hsmall
      room := hsize.symm ▸ hroom
      pinCount := fun i hi => absurd (congrArg Frame.pageId (hempty i)) hi
      pinned := fun pageId hpage => absurd hpage List.not_mem_nil
      cached := fun i hi => absurd (congrArg Frame.pageId (hempty i)) hi
      onDisk := fun pageId _ _ => Set.mem_singleton _
      written := fun pageId hpage => Or.inr (Or.inr (Or.inr
        ((Nat.le_div_iff_mul_le hpositive).mp (Nat.succ_le_of_lt hpage))))
      dirtyBelow := fun pageId hpage => absurd hpage (hclean pageId)
      touchedBelow := fun pageId hpage => absurd hpage (Set.notMem_empty _)
      fileBelow := (Nat.div_lt_iff_lt_mul hpositive).mp (Nat.lt_succ_self _)
      wal := rfl
      walFile := rfl
      nextPageId := rfl
      counter := hcounter }

/-- The pages that other users of the pool keep pinned. -/
def pinPages : List ℕ → PageProgram Unit
  | [] => return ()
  | pageId :: pages => do
    let _ ← fetchPage pageId
    pinPages pages

/-- Pinning pages that all fit. -/
theorem exec_pinPages {s : PageArray} {pages : List ℕ} (hvalid : ∀ pageId ∈ pages, pageId < invalidPageId)
    (hroom : (pages.reverse ++ s.pins).dedup.length ≤ s.room)
    (hlimit : pages.length + s.pins.length < 2 ^ 32) :
    arrayHandler.exec (pinPages pages) s =
      some ((), { s with pins := pages.reverse ++ s.pins }) := by
  induction pages generalizing s with
  | nil => rfl
  | cons pageId pages ih =>
    rw [List.reverse_cons, List.append_assoc, List.singleton_append] at hroom ⊢
    rw [List.length_cons] at hlimit
    have hsub : (pageId :: s.pins).dedup.length ≤ (pages.reverse ++ pageId :: s.pins).dedup.length := by
      rw [← List.card_toFinset, ← List.card_toFinset]
      apply Finset.card_le_card
      intro other hother
      rw [List.mem_toFinset] at hother ⊢
      exact List.mem_append_right _ hother
    have hfetch : s.Fetchable pageId := by
      refine ⟨hvalid pageId List.mem_cons_self, ?_, by omega⟩
      by_cases hmem : pageId ∈ s.pins
      · exact Or.inl hmem
      · rw [List.dedup_cons_of_notMem hmem, List.length_cons] at hsub
        exact Or.inr (by omega)
    rw [pinPages, Handler.exec_bind_of_eq _ (PageArray.exec_fetchPage hfetch)]
    refine ih (fun other hother => hvalid other (List.mem_cons_of_mem pageId hother)) hroom ?_
    rw [PageArray.pin, List.length_cons]
    omega

/-! ## Pools that the clock scan does not cover -/

/-- A new pool for which the bound of the clock scan wraps to zero pins no page. -/
theorem exec_fetchPage_of_no_attempts {poolSize : ℕ} (hattempts : clockAttempts poolSize = 0)
    (diskFd : ℤ) (wal : Option WALManager) (host : Host) (nextPageId : ℕ) {pageId : ℕ}
    (hvalid : pageId < invalidPageId) :
    poolHandler.exec (fetchPage pageId) ⟨bufferPoolInit diskFd wal host poolSize, nextPageId⟩ =
      some (false, ⟨bufferPoolInit diskFd wal host poolSize, nextPageId⟩) := by
  set st := bufferPoolInit diskFd wal host poolSize with hst
  have hsize : st.bpm.poolSize = poolSize := List.length_replicate
  have hmiss : st.bpm.frameIndex pageId = none := by
    apply BufferPoolManager.frameIndex_eq_none
    intro i _
    rw [hst, bufferPoolInit, BufferPoolManager.frame_replicate]
    exact hvalid.ne'
  have hscan : clockScan st.bpm.frames (clockAttempts st.bpm.poolSize) st.bpm.clockHand =
      (none, st.bpm.clockHand) := by
    rw [hsize, hattempts]
    rfl
  have hfetch : bufferPoolFetchPage st pageId = (none, st) := by
    unfold bufferPoolFetchPage
    simp only [hmiss, findVictimFrame, hscan]
    rfl
  rw [fetchPage, Handler.exec_perform]
  change some ((bufferPoolFetchPage st pageId).1.isSome,
    ({ storage := (bufferPoolFetchPage st pageId).2, nextPageId } : Machine)) = _
  rw [hfetch]
  rfl

/-- The product `pool_size * 2` wraps to zero for `2 ^ 31` frames. -/
theorem clockAttempts_two_pow : clockAttempts (2 ^ 31) = 0 := by decide

/-! ## The number of frames -/

/-- Writing a page back keeps the number of frames. -/
theorem poolSize_bufferPoolFlushPage (st : Storage) (pageId : ℕ) :
    (bufferPoolFlushPage st pageId).2.bpm.poolSize = st.bpm.poolSize := by
  have hlog : st.flushWal.bpm = st.bpm := by
    rw [Storage.flushWal]
    cases st.wal <;> rfl
  rw [bufferPoolFlushPage]
  split_ifs with hinvalid
  · rfl
  cases hindex : st.bpm.frameIndex pageId with
  | none => rfl
  | some i =>
    dsimp only
    split_ifs with hdirty hwrite
    · exact congrArg BufferPoolManager.poolSize hlog
    · exact (BufferPoolManager.poolSize_setFrame _ _ _).trans (congrArg BufferPoolManager.poolSize hlog)
    · rfl

/-- Choosing a victim keeps the number of frames. -/
theorem poolSize_findVictimFrame (st : Storage) :
    (findVictimFrame st).2.bpm.poolSize = st.bpm.poolSize := by
  rw [findVictimFrame_eq]
  cases st.bpm.victim with
  | none => rfl
  | some i =>
    dsimp only
    split_ifs with hdirty
    · exact poolSize_bufferPoolFlushPage _ _
    · rfl

/-- Pinning a page keeps the number of frames. -/
theorem poolSize_bufferPoolFetchPage (st : Storage) (pageId : ℕ) :
    (bufferPoolFetchPage st pageId).2.bpm.poolSize = st.bpm.poolSize := by
  rw [bufferPoolFetchPage]
  cases hindex : st.bpm.frameIndex pageId with
  | some i => exact BufferPoolManager.poolSize_setFrame _ _ _
  | none =>
    dsimp only
    split_ifs with hvictim hopen
    · exact poolSize_findVictimFrame st
    · exact (BufferPoolManager.poolSize_setFrame _ _ _).trans (poolSize_findVictimFrame st)
    · exact (BufferPoolManager.poolSize_setFrame _ _ _).trans (poolSize_findVictimFrame st)

/-- No call changes the number of frames. -/
theorem poolSize_run {command : PageCommand} {m m' : Machine} {answer : command.Answer}
    (hrun : poolHandler.run command m = some (answer, m')) :
    m'.storage.bpm.poolSize = m.storage.bpm.poolSize := by
  cases command with
  | fetchPage pageId =>
    simp only [poolHandler, Option.some.injEq, Prod.mk.injEq] at hrun
    exact hrun.2 ▸ poolSize_bufferPoolFetchPage m.storage pageId
  | pageData pageId =>
    simp only [poolHandler, Option.map_eq_some_iff, Prod.mk.injEq] at hrun
    obtain ⟨i, -, -, rfl⟩ := hrun
    rfl
  | modifyPage pageId change =>
    simp only [poolHandler, Option.map_eq_some_iff, Prod.mk.injEq] at hrun
    obtain ⟨i, -, -, rfl⟩ := hrun
    exact BufferPoolManager.poolSize_setFrame _ _ _
  | unpinPage pageId isDirty hint =>
    simp only [poolHandler, Option.some.injEq, Prod.mk.injEq] at hrun
    rw [← hrun.2, bufferPoolUnpinPage]
    cases m.storage.bpm.frameIndex pageId with
    | none => rfl
    | some i =>
      dsimp only
      split_ifs with hscan
      · exact BufferPoolManager.poolSize_setFrame _ _ _
      · exact BufferPoolManager.poolSize_setFrame _ _ _
  | writeZeroPage pageId =>
    simp only [poolHandler] at hrun
    split_ifs at hrun with hclosed
    · simp only [Option.some.injEq, Prod.mk.injEq] at hrun
      exact hrun.2 ▸ rfl
    · simp only [Option.some.injEq, Prod.mk.injEq] at hrun
      exact hrun.2 ▸ rfl
  | walAppend txnId recType pageId slotId payload =>
    simp only [poolHandler, Option.map_eq_some_iff, Prod.mk.injEq] at hrun
    obtain ⟨wal, -, -, rfl⟩ := hrun
    rfl
  | _ =>
    simp only [poolHandler, Option.some.injEq, Prod.mk.injEq] at hrun
    exact hrun.2 ▸ rfl

/-- No program changes the number of frames. -/
theorem poolSize_exec {α : Type} {p : PageProgram α} {m m' : Machine} {value : α}
    (hexec : poolHandler.exec p m = some (value, m')) :
    m'.storage.bpm.poolSize = m.storage.bpm.poolSize :=
  @Program.Calls.exec _ _ _ _ p p.calls_any poolHandler
    (fun n => n.storage.bpm.poolSize = m.storage.bpm.poolSize)
    (fun _ _ _ _ _ hsize hrun => (poolSize_run hrun).trans hsize) _ _ _ rfl hexec

/-! ## The log -/

/-- The log and its file are the same. -/
structure KeepsLog (before after : Storage) : Prop where
  wal : after.wal = before.wal
  walFile : after.host.walFile = before.host.walFile

namespace KeepsLog

variable {st before mid after : Storage}

/-- Nothing happened. -/
theorem refl (st : Storage) : KeepsLog st st := ⟨rfl, rfl⟩

/-- One step after another. -/
theorem trans (h : KeepsLog before mid) (h' : KeepsLog mid after) : KeepsLog before after :=
  ⟨h'.wal.trans h.wal, h'.walFile.trans h.walFile⟩

/-- Forcing the log to disk. -/
theorem flushWal (st : Storage) : KeepsLog st st.flushWal := by
  have hsync : ∀ host : Host, host.syncWal.2.walFile = host.walFile := by
    intro host
    rw [Host.syncWal]
    cases host.walSyncs.headD .full <;> rfl
  obtain ⟨bpm, wal, host⟩ := st
  cases wal with
  | none => exact refl _
  | some wal =>
    refine ⟨rfl, ?_⟩
    change (walFlush wal host).2.walFile = host.walFile
    rw [walFlush]
    split_ifs with hopen
    · exact hsync host
    · rfl

/-- Writing to the data file. -/
theorem write (st : Storage) (data : List UInt8) (position : ℕ) :
    KeepsLog st { st with host := (ftsVfsWriteSync st.host data position).2 } := by
  refine ⟨rfl, ?_⟩
  rw [ftsVfsWriteSync]
  cases (st.host.pageWrites.headD .full).transferred data.length <;> rfl

/-- Reading from the data file. -/
theorem read (st : Storage) (pageId : ℕ) :
    KeepsLog st { st with host := (readPageOrFormat st.host pageId).2 } := by
  refine ⟨rfl, ?_⟩
  rw [readPageOrFormat, ftsVfsReadSync]
  dsimp only
  cases (st.host.pageReads.headD .full).transferred pageSize with
  | none => rfl
  | some moved =>
    dsimp only
    split_ifs <;> rfl

/-- Writing a page back. -/
theorem bufferPoolFlushPage (st : Storage) (pageId : ℕ) :
    KeepsLog st (FtsUring.bufferPoolFlushPage st pageId).2 := by
  rw [FtsUring.bufferPoolFlushPage]
  split_ifs with hinvalid
  · exact refl st
  cases hindex : st.bpm.frameIndex pageId with
  | none => exact refl st
  | some i =>
    dsimp only
    have hwritten := (flushWal st).trans
      (write st.flushWal (st.bpm.frame i).pageData.bytes (pageId * pageSize))
    split_ifs with hdirty hwrite
    · exact hwritten
    · exact ⟨hwritten.wal, hwritten.walFile⟩
    · exact refl st

/-- Choosing a victim. -/
theorem findVictimFrame (st : Storage) : KeepsLog st (FtsUring.findVictimFrame st).2 := by
  rw [findVictimFrame_eq]
  cases st.bpm.victim with
  | none => exact ⟨rfl, rfl⟩
  | some i =>
    dsimp only
    split_ifs with hdirty
    · have hflushed := bufferPoolFlushPage { st with bpm := st.bpm.scanned } (st.bpm.frame i).pageId
      exact ⟨hflushed.wal, hflushed.walFile⟩
    · exact ⟨rfl, rfl⟩

/-- Pinning a page. -/
theorem bufferPoolFetchPage (st : Storage) (pageId : ℕ) :
    KeepsLog st (FtsUring.bufferPoolFetchPage st pageId).2 := by
  rw [FtsUring.bufferPoolFetchPage]
  cases hindex : st.bpm.frameIndex pageId with
  | some i => exact ⟨rfl, rfl⟩
  | none =>
    have hvictim := findVictimFrame st
    dsimp only
    split_ifs with hnone hopen
    · exact hvictim
    · have hread := hvictim.trans (read (FtsUring.findVictimFrame st).2 pageId)
      exact ⟨hread.wal, hread.walFile⟩
    · exact ⟨hvictim.wal, hvictim.walFile⟩

end KeepsLog

/-- A command that appends no record. -/
def PageCommand.AppendsNothing : PageCommand → Prop
  | .walAppend _ _ _ _ _ => False
  | _ => True

/-- A call that appends no record keeps the log. -/
theorem keepsLog_run {command : PageCommand} (hallowed : command.AppendsNothing) {m m' : Machine}
    {answer : command.Answer} (hrun : poolHandler.run command m = some (answer, m')) :
    KeepsLog m.storage m'.storage := by
  cases command with
  | fetchPage pageId =>
    simp only [poolHandler, Option.some.injEq, Prod.mk.injEq] at hrun
    exact hrun.2 ▸ KeepsLog.bufferPoolFetchPage m.storage pageId
  | pageData pageId =>
    simp only [poolHandler, Option.map_eq_some_iff, Prod.mk.injEq] at hrun
    obtain ⟨i, -, -, rfl⟩ := hrun
    exact .refl _
  | modifyPage pageId change =>
    simp only [poolHandler, Option.map_eq_some_iff, Prod.mk.injEq] at hrun
    obtain ⟨i, -, -, rfl⟩ := hrun
    exact ⟨rfl, rfl⟩
  | unpinPage pageId isDirty hint =>
    simp only [poolHandler, Option.some.injEq, Prod.mk.injEq] at hrun
    rw [← hrun.2, bufferPoolUnpinPage]
    cases m.storage.bpm.frameIndex pageId with
    | none => exact .refl _
    | some i =>
      dsimp only
      split_ifs <;> exact ⟨rfl, rfl⟩
  | writeZeroPage pageId =>
    simp only [poolHandler] at hrun
    split_ifs at hrun with hclosed
    · simp only [Option.some.injEq, Prod.mk.injEq] at hrun
      exact hrun.2 ▸ .refl _
    · simp only [Option.some.injEq, Prod.mk.injEq] at hrun
      exact hrun.2 ▸ .write m.storage _ _
  | walAppend txnId recType pageId slotId payload => exact hallowed.elim
  | _ =>
    simp only [poolHandler, Option.some.injEq, Prod.mk.injEq] at hrun
    exact hrun.2 ▸ .refl _

/-- A program that appends no record keeps the log, whatever the reads and writes do. -/
theorem keepsLog_exec {α : Type} {p : PageProgram α} (hp : p.Calls PageCommand.AppendsNothing)
    {m m' : Machine} {value : α} (hexec : poolHandler.exec p m = some (value, m')) :
    KeepsLog m.storage m'.storage :=
  @Program.Calls.exec _ _ _ _ p hp poolHandler (fun n => KeepsLog m.storage n.storage)
    (fun _ hallowed _ _ _ hkept hrun => hkept.trans (keepsLog_run hallowed hrun)) _ _ _ (.refl _) hexec

/-! ## Flushing -/

/-- Without errors every write of a batch completes, if there is room for the completions. -/
theorem ftsVfsBatch_completed (bpm : BufferPoolManager) {maxEvents : ℕ} {queued : List ℕ}
    (completed : List ℕ) {host : Host} (hfree : host.FaultFree)
    (hlength : completed.length + queued.length ≤ maxEvents) :
    (queued.foldl (ftsVfsBatchComplete bpm maxEvents) (completed, host)).1 = completed ++ queued := by
  induction queued generalizing completed host with
  | nil => rw [List.foldl_nil, List.append_nil]
  | cons i queued ih =>
    rw [List.length_cons] at hlength
    have hstep : ftsVfsBatchComplete bpm maxEvents (completed, host) i =
        (completed ++ [i], { host with
          dataFile := pwriteFile host.dataFile ((bpm.frame i).pageId * pageSize)
            (bpm.frame i).pageData.bytes }) := by
      simp only [ftsVfsBatchComplete, ftsVfsWriteSync_eq hfree]
      exact if_pos ⟨by omega, Int.natCast_nonneg _⟩
    rw [List.foldl_cons, hstep]
    refine (ih (completed ++ [i]) ?_ ?_).trans (List.append_assoc _ _ _)
    · exact ⟨hfree.pageReads, hfree.pageWrites, hfree.walWrites, hfree.walSyncs⟩
    · rw [List.length_append, List.length_singleton]
      omega

/-- Marking a frame clean. -/
theorem Storage.not_isDirty_markClean (st : Storage) (i : ℕ) :
    ¬((st.markClean i).bpm.frame i).isDirty := by
  by_cases hi : i < st.bpm.poolSize
  · rw [markClean, BufferPoolManager.frame_setFrame_self _ hi]
    exact Bool.false_ne_true
  · have hsize : (st.markClean i).bpm.poolSize ≤ i := by
      rw [markClean, BufferPoolManager.poolSize_setFrame]
      exact not_lt.mp hi
    rw [BufferPoolManager.frame_of_le _ hsize]
    exact Bool.false_ne_true

/-- Marking other frames clean keeps a frame clean. -/
theorem Storage.not_isDirty_markClean_of (st : Storage) (i : ℕ) {j : ℕ}
    (h : ¬(st.bpm.frame j).isDirty) : ¬((st.markClean i).bpm.frame j).isDirty := by
  by_cases hij : i = j
  · rw [← hij]
    exact st.not_isDirty_markClean i
  · rwa [markClean, BufferPoolManager.frame_setFrame_of_ne _ hij]

/-- Marking frames clean one after the other. -/
theorem Storage.not_isDirty_markClean_all (st : Storage) {completed : List ℕ} {j : ℕ}
    (h : j ∈ completed ∨ ¬(st.bpm.frame j).isDirty) :
    ¬((completed.foldl Storage.markClean st).bpm.frame j).isDirty := by
  induction completed generalizing st with
  | nil => exact h.resolve_left List.not_mem_nil
  | cons i completed ih =>
    rw [List.foldl_cons]
    apply ih
    rw [List.mem_cons] at h
    obtain (rfl | hmem) | hclean := h
    · exact Or.inr (st.not_isDirty_markClean j)
    · exact Or.inl hmem
    · exact Or.inr (st.not_isDirty_markClean_of i hclean)

/-- Without errors the frames of a submitted batch are clean, and no frame becomes dirty. -/
theorem Storage.not_isDirty_submitBatch {st : Storage} (hfree : st.host.FaultFree) {queued : List ℕ}
    (hlength : queued.length ≤ vfsQueueSize) {j : ℕ}
    (h : j ∈ queued ∨ ¬(st.bpm.frame j).isDirty) :
    ¬((st.submitBatch queued).bpm.frame j).isDirty := by
  have hcompleted := @ftsVfsBatch_completed st.bpm vfsQueueSize queued [] _ hfree
    (by rwa [List.length_nil, Nat.zero_add])
  rw [List.nil_append] at hcompleted
  simp only [submitBatch, ftsVfsBatchSubmitAndWait]
  apply Storage.not_isDirty_markClean_all
  rwa [hcompleted]

/-- One frame of the flush loop: it is clean afterwards or queued, and so are those that were. -/
theorem flushAllStep_clean {queued : List ℕ} {st : Storage} (hbpm : st.bpm.WellFormed)
    (hfree : st.host.FaultFree) (hopen : 0 ≤ st.bpm.diskFd)
    (hlength : queued.length < flushBatchLimit) {i j : ℕ}
    (h : j = i ∨ j ∈ queued ∨ ¬(st.bpm.frame j).isDirty) :
    j ∈ (flushAllStep (st, queued) i).2 ∨
      ¬((flushAllStep (st, queued) i).1.bpm.frame j).isDirty := by
  have hmem : j ∈ queued ++ [i] ∨ ¬(st.bpm.frame j).isDirty := by
    rw [List.mem_append, List.mem_singleton]
    tauto
  rw [flushAllStep_eq hlength]
  split_ifs with hdirty hfull
  · refine Or.inr (Storage.not_isDirty_submitBatch hfree ?_ hmem)
    rw [List.length_append, List.length_singleton]
    exact Nat.succ_le_of_lt (hlength.trans (by decide))
  · exact hmem
  · obtain rfl | hrest := h
    · exact Or.inr fun hstill => hdirty ⟨hbpm.dirtyNamed j hstill, hstill, hopen⟩
    · exact hrest

/-- The frames of the flush loop are clean afterwards or queued. -/
theorem flushAllLoop_clean {indices queued : List ℕ} {st : Storage} (hbpm : st.bpm.WellFormed)
    (hfree : st.host.FaultFree) (hopen : 0 ≤ st.bpm.diskFd)
    (hqueued : ∀ i ∈ queued, (st.bpm.frame i).isDirty) (hlength : queued.length < flushBatchLimit)
    {j : ℕ} (h : j ∈ indices ∨ j ∈ queued ∨ ¬(st.bpm.frame j).isDirty) :
    (indices.foldl flushAllStep (st, queued)).2.length < flushBatchLimit ∧
      (j ∈ (indices.foldl flushAllStep (st, queued)).2 ∨
        ¬((indices.foldl flushAllStep (st, queued)).1.bpm.frame j).isDirty) := by
  induction indices generalizing st queued with
  | nil => exact ⟨hlength, h.resolve_left List.not_mem_nil⟩
  | cons i indices ih =>
    have hshort : ∀ outcome ∈ st.host.pageWrites, ¬outcome.IsShort := by
      simp [hfree.pageWrites]
    obtain ⟨hstep, hqueued', hlength'⟩ := writesBack_flushAllStep hbpm hqueued hlength hshort i
    have hclean : j = i ∨ j ∈ queued ∨ ¬(st.bpm.frame j).isDirty →
        j ∈ (flushAllStep (st, queued) i).2 ∨
          ¬((flushAllStep (st, queued) i).1.bpm.frame j).isDirty :=
      flushAllStep_clean hbpm hfree hopen hlength
    rw [List.foldl_cons]
    generalize flushAllStep (st, queued) i = result at *
    apply ih (hstep.wellFormed hbpm) (hstep.log.faultFree hfree) _ hqueued' hlength'
    · rw [List.mem_cons] at h
      tauto
    · rw [hstep.diskFd]
      exact hopen

/-- Without errors no frame is dirty after the pool is flushed. -/
theorem bufferPoolFlushAll_clean {st : Storage} (hbpm : st.bpm.WellFormed)
    (hfree : st.host.FaultFree) (hopen : 0 ≤ st.bpm.diskFd) (i : ℕ) :
    ¬((bufferPoolFlushAll st).bpm.frame i).isDirty := by
  have hframes : ∀ {st' : Storage}, st'.bpm.WellFormed → st'.host.FaultFree → 0 ≤ st'.bpm.diskFd →
      ¬(st'.flushFrames.bpm.frame i).isDirty := by
    intro st' hbpm' hfree' hopen'
    have hindex : i ∈ List.range st'.bpm.poolSize ∨ i ∈ ([] : List ℕ) ∨
        ¬(st'.bpm.frame i).isDirty := by
      by_cases hi : i < st'.bpm.poolSize
      · exact Or.inl (List.mem_range.mpr hi)
      · rw [st'.bpm.frame_of_le (not_lt.mp hi)]
        exact Or.inr (Or.inr Bool.false_ne_true)
    obtain ⟨hlength, hclean⟩ := flushAllLoop_clean hbpm' hfree' hopen' (by simp) (by decide) hindex
    obtain ⟨hback, -⟩ := @writesBack_flushAllLoop (List.range st'.bpm.poolSize) [] st' hbpm' (by simp)
      (by decide) (by simp [hfree'.pageWrites])
    simp only [Storage.flushFrames]
    split_ifs with hpending
    · exact Storage.not_isDirty_submitBatch (hback.log.faultFree hfree')
        (hlength.le.trans (by decide)) hclean
    · refine hclean.resolve_left fun hmem => hpending (List.length_pos_of_mem hmem)
  have hlog := writesBack_flushWal st
  unfold bufferPoolFlushAll
  simp only
  split_ifs
  · exact hframes (hlog.wellFormed hbpm) (hlog.log.faultFree hfree) (hlog.diskFd ▸ hopen)
  · exact hframes hbpm hfree hopen

/-- A page whose content is certain is not just any page. -/
theorem PageArray.Holds.content_ne_univ {s : PageArray} {pageId : ℕ} {page : Page}
    (hholds : s.Holds pageId page) : s.content pageId ≠ Set.univ := by
  intro huniv
  rw [hholds] at huniv
  have hzero : Page.zero ∈ ({page} : Set Page) := huniv ▸ Set.mem_univ _
  have hother : slottedPageInit 0 .row ∈ ({page} : Set Page) := huniv ▸ Set.mem_univ _
  have hsame : Page.zero.pageType = (slottedPageInit 0 .row).pageType := by
    rw [Set.mem_singleton_iff.mp hzero, Set.mem_singleton_iff.mp hother]
  rw [(slottedPageInit_fields 0 .row).1, Page.pageType, Page.field_zero] at hsame
  exact absurd hsame (by decide)

namespace Represents

variable {m : Machine} {s : PageArray}

/-- Flushing the pool changes nothing that the array knows of. -/
theorem flushAll (h : Represents m s) :
    Represents { m with storage := bufferPoolFlushAll m.storage } s :=
  h.writesBack (writesBack_bufferPoolFlushAll h.wellFormed (by simp [h.faultFree.pageWrites]))

/-- After a flush the data file holds the written pages that are certain. -/
theorem holdsPage_flushAll (h : Represents m s) (htouched : s.touched = ∅) {pageId : ℕ}
    (hextent : pageId < s.extent) {page : Page} (hholds : s.Holds pageId page) :
    (bufferPoolFlushAll m.storage).host.HoldsPage pageId page := by
  have hclean : ¬(bufferPoolFlushAll m.storage).bpm.Dirty pageId := by
    rintro ⟨i, hi, -⟩
    exact bufferPoolFlushAll_clean h.wellFormed h.faultFree h.opened i hi
  have hnotTouched : pageId ∉ s.touched := htouched ▸ Set.notMem_empty _
  have hcontent := h.flushAll.onDisk pageId hclean hnotTouched
  rw [hholds, Set.mem_singleton_iff] at hcontent
  obtain huniv | hdirty | hmem | hstores := h.flushAll.written pageId hextent
  · exact absurd huniv hholds.content_ne_univ
  · exact absurd hdirty hclean
  · exact absurd hmem hnotTouched
  · rw [← hcontent]
    exact Host.holdsPage_diskPage hstores

/-- Of more pages than there are frames, one is in the data file. -/
theorem exists_stores (h : Represents m s) (htouched : s.touched = ∅) {first : ℕ}
    (hextent : first + m.storage.bpm.poolSize < s.extent)
    (hcertain : ∀ pageId < s.extent, ∃ page, s.Holds pageId page) :
    ∃ pageId, first ≤ pageId ∧ m.storage.host.Stores pageId := by
  by_contra hnone
  have hdirty : ∀ pageId, first ≤ pageId → pageId < s.extent → m.storage.bpm.Dirty pageId := by
    intro pageId hlow hbound
    obtain ⟨page, hholds⟩ := hcertain pageId hbound
    obtain huniv | hdirty | hmem | hstores := h.written pageId hbound
    · exact absurd huniv hholds.content_ne_univ
    · exact hdirty
    · exact absurd (htouched ▸ hmem) (Set.notMem_empty _)
    · exact absurd ⟨pageId, hlow, hstores⟩ hnone
  -- the frames of these pages are different ones
  have hframe : ∀ offset ∈ Finset.range (m.storage.bpm.poolSize + 1), ∃ i ∈ Finset.range m.storage.bpm.poolSize,
      (m.storage.bpm.frame i).pageId = first + offset := by
    intro offset hoffset
    rw [Finset.mem_range] at hoffset
    obtain ⟨i, hi, hpage⟩ := hdirty (first + offset) (by omega) (by omega)
    refine ⟨i, ?_, hpage⟩
    rw [Finset.mem_range]
    by_contra hout
    rw [m.storage.bpm.frame_of_le (not_lt.mp hout)] at hi
    exact absurd hi (by decide)
  choose! frameOf hmaps hheld using hframe
  obtain ⟨offset, hoffset, other, hother, hne, hsame⟩ :=
    Finset.exists_ne_map_eq_of_card_lt_of_maps_to (by simp) hmaps
  have hpages := (hheld offset hoffset).symm.trans (hsame ▸ hheld other hother)
  omega

end Represents

end FtsUring
