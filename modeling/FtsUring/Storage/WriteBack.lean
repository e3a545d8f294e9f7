import FtsUring.Storage.BufferPool

/-!
# Writing frames back

Pages are written on three paths: eviction, the flush of a single page, and the batched flush of
the whole pool. `WritesBack` says what each of them may do to the pool and to the data file when
no write is short: some dirty frames are written, a frame becomes clean only when its complete
image is in the file, and nothing else changes.
-/

namespace FtsUring

open Foundation

/-- The data file holds the complete image of a page. -/
def Host.HoldsPage (host : Host) (pageId : ℕ) (page : Page) : Prop :=
  slice host.dataFile (pageId * pageSize) pageSize = page.bytes

/-- A write that moves only a part of its bytes. -/
def IoOutcome.IsShort (outcome : IoOutcome) : Prop := ∃ moved, outcome = .short moved

/-- Two hosts with the same log and reads to come, and no more page writes and log flushes to
come. -/
structure SameLog (before after : Host) : Prop where
  walFile : after.walFile = before.walFile
  pageReads : after.pageReads = before.pageReads
  walWrites : after.walWrites = before.walWrites
  pageWrites : after.pageWrites <:+ before.pageWrites
  walSyncs : after.walSyncs <:+ before.walSyncs

/-- Nothing happened. -/
theorem SameLog.refl (host : Host) : SameLog host host :=
  ⟨rfl, rfl, rfl, List.suffix_refl _, List.suffix_refl _⟩

/-- Two steps. -/
theorem SameLog.trans {first second third : Host} (h : SameLog first second)
    (h' : SameLog second third) : SameLog first third :=
  ⟨h'.walFile.trans h.walFile, h'.pageReads.trans h.pageReads, h'.walWrites.trans h.walWrites,
    h'.pageWrites.trans h.pageWrites, h'.walSyncs.trans h.walSyncs⟩

/-- No faults appear. -/
theorem SameLog.faultFree {before after : Host} (h : SameLog before after) (hfree : before.FaultFree) :
    after.FaultFree :=
  ⟨h.pageReads.trans hfree.pageReads, List.suffix_nil.mp (hfree.pageWrites ▸ h.pageWrites),
    h.walWrites.trans hfree.walWrites, List.suffix_nil.mp (hfree.walSyncs ▸ h.walSyncs)⟩

/-- The pool still holds the same pages, some dirty frames have been written to the data file,
and the frames that became clean are there in full. -/
structure WritesBack (before after : Storage) : Prop where
  poolSize : after.bpm.poolSize = before.bpm.poolSize
  diskFd : after.bpm.diskFd = before.bpm.diskFd
  clockHand : after.bpm.clockHand = before.bpm.clockHand
  pageId : ∀ i, (after.bpm.frame i).pageId = (before.bpm.frame i).pageId
  pageData : ∀ i, (after.bpm.frame i).pageData = (before.bpm.frame i).pageData
  pinCount : ∀ i, (after.bpm.frame i).pinCount = (before.bpm.frame i).pinCount
  dirtied : ∀ i, (after.bpm.frame i).isDirty → (before.bpm.frame i).isDirty
  cleaned : ∀ i, (before.bpm.frame i).isDirty → ¬(after.bpm.frame i).isDirty →
    after.host.HoldsPage (before.bpm.frame i).pageId (before.bpm.frame i).pageData
  onDisk : ∀ pageId page, before.host.HoldsPage pageId page →
    after.host.HoldsPage pageId page ∨ ∃ i, (before.bpm.frame i).isDirty ∧
      (before.bpm.frame i).pageId = pageId ∧
      after.host.HoldsPage pageId (before.bpm.frame i).pageData
  fileLength : ∀ extent, (∀ i, (before.bpm.frame i).isDirty → (before.bpm.frame i).pageId < extent) →
    after.host.dataFile.length ≤ max before.host.dataFile.length (extent * pageSize)
  wal : after.wal = before.wal
  log : SameLog before.host after.host

/-- A step that changes neither the pool nor the data file. -/
theorem WritesBack.of_bpm {before after : Storage} (hbpm : after.bpm = before.bpm)
    (hfile : after.host.dataFile = before.host.dataFile) (hwal : after.wal = before.wal)
    (hlog : SameLog before.host after.host) : WritesBack before after := by
  refine ⟨by rw [hbpm], by rw [hbpm], by rw [hbpm], ?_, ?_, ?_, ?_, ?_, ?_, ?_, hwal, hlog⟩
  · intro i
    rw [hbpm]
  · intro i
    rw [hbpm]
  · intro i
    rw [hbpm]
  · intro i hdirty
    rwa [hbpm] at hdirty
  · intro i hdirty hclean
    rw [hbpm] at hclean
    exact absurd hdirty hclean
  · intro pageId page hpage
    left
    rwa [Host.HoldsPage, hfile]
  · intro extent _
    rw [hfile]
    exact le_max_left _ _

/-- Nothing happened. -/
theorem WritesBack.refl (st : Storage) : WritesBack st st :=
  .of_bpm rfl rfl rfl (.refl _)

/-- Writing back keeps the pool well formed. -/
theorem WritesBack.wellFormed {before after : Storage} (h : WritesBack before after)
    (hbpm : before.bpm.WellFormed) : after.bpm.WellFormed := by
  refine ⟨?_, ?_, by rw [h.clockHand, h.poolSize]; exact hbpm.hand, by rw [h.poolSize]; exact hbpm.size⟩
  · intro i j hi hij
    rw [h.pageId] at hi
    rw [h.pageId, h.pageId] at hij
    exact hbpm.distinct i j hi hij
  · intro i hdirty
    rw [h.pageId]
    exact hbpm.dirtyNamed i (h.dirtied i hdirty)

/-- A frame that is in the file in full stays there. -/
theorem WritesBack.holdsPage {before after : Storage} (h : WritesBack before after)
    (hbpm : before.bpm.WellFormed) {i : ℕ}
    (hpage : before.host.HoldsPage (before.bpm.frame i).pageId (before.bpm.frame i).pageData) :
    after.host.HoldsPage (before.bpm.frame i).pageId (before.bpm.frame i).pageData := by
  obtain hholds | ⟨j, hdirty, hj, hholds⟩ := h.onDisk _ _ hpage
  · exact hholds
  · have hji : j = i := hbpm.distinct j i (hbpm.dirtyNamed j hdirty) hj
    rwa [hji] at hholds

/-- Writing back in two steps. -/
theorem WritesBack.trans {first second third : Storage} (hbpm : first.bpm.WellFormed)
    (h : WritesBack first second) (h' : WritesBack second third) : WritesBack first third := by
  refine ⟨h'.poolSize.trans h.poolSize, h'.diskFd.trans h.diskFd,
    h'.clockHand.trans h.clockHand, ?_, ?_, ?_, ?_, ?_, ?_, ?_, h'.wal.trans h.wal, h.log.trans h'.log⟩
  · intro i
    rw [h'.pageId, h.pageId]
  · intro i
    rw [h'.pageData, h.pageData]
  · intro i
    rw [h'.pinCount, h.pinCount]
  · intro i hdirty
    exact h.dirtied i (h'.dirtied i hdirty)
  · intro i hdirty hclean
    by_cases hmiddle : (second.bpm.frame i).isDirty
    · have hholds := h'.cleaned i hmiddle hclean
      rwa [h.pageId, h.pageData] at hholds
    · have hholds := h.cleaned i hdirty hmiddle
      rw [← h.pageId, ← h.pageData] at hholds ⊢
      exact h'.holdsPage (h.wellFormed hbpm) hholds
  · intro pageId page hpage
    obtain hholds | ⟨i, hdirty, hi, hholds⟩ := h.onDisk pageId page hpage
    · obtain hholds' | ⟨i, hdirty, hi, hholds'⟩ := h'.onDisk pageId page hholds
      · exact Or.inl hholds'
      · rw [h.pageId] at hi
        rw [h.pageData] at hholds'
        exact Or.inr ⟨i, h.dirtied i hdirty, hi, hholds'⟩
    · obtain hholds' | ⟨j, hdirtyj, hj, hholds'⟩ := h'.onDisk _ _ hholds
      · exact Or.inr ⟨i, hdirty, hi, hholds'⟩
      · rw [h.pageId] at hj
        rw [h.pageData] at hholds'
        exact Or.inr ⟨j, h.dirtied j hdirtyj, hj, hholds'⟩
  · intro extent hdirty
    have hfirst := h.fileLength extent hdirty
    have hsecond := h'.fileLength extent fun i hi => h.pageId i ▸ hdirty i (h.dirtied i hi)
    omega

/-- A page in the file has its full size there. -/
theorem Host.HoldsPage.le_length {host : Host} {pageId : ℕ} {page : Page}
    (h : host.HoldsPage pageId page) : pageId * pageSize + pageSize ≤ host.dataFile.length := by
  have hlength := congrArg List.length h
  rw [Foundation.length_slice, page.length_bytes] at hlength
  rw [pageSize] at hlength ⊢
  omega

/-- A write that is not short either reports an error and leaves the file alone, or stores the
complete page. -/
theorem ftsVfsWriteSync_cases {host : Host} (hshort : ¬(host.pageWrites.headD .full).IsShort)
    (page : Page) (pageId : ℕ) :
    ((ftsVfsWriteSync host page.bytes (pageId * pageSize)).1 < 0 ∧
        (ftsVfsWriteSync host page.bytes (pageId * pageSize)).2.dataFile = host.dataFile ∧
        host.pageWrites.headD .full = .error) ∨
      (0 ≤ (ftsVfsWriteSync host page.bytes (pageId * pageSize)).1 ∧
        (ftsVfsWriteSync host page.bytes (pageId * pageSize)).2.dataFile =
          pwriteFile host.dataFile (pageId * pageSize) page.bytes) := by
  unfold ftsVfsWriteSync
  cases houtcome : host.pageWrites.headD .full with
  | error => exact Or.inl ⟨by simp [IoOutcome.transferred], rfl, rfl⟩
  | short moved => exact absurd ⟨moved, houtcome⟩ hshort
  | full =>
    right
    simp [IoOutcome.transferred]

/-- A page write does not concern the log. -/
theorem sameLog_ftsVfsWriteSync (host : Host) (data : List UInt8) (offset : ℕ) :
    SameLog host (ftsVfsWriteSync host data offset).2 := by
  unfold ftsVfsWriteSync
  cases (host.pageWrites.headD .full).transferred data.length <;>
    exact ⟨rfl, rfl, rfl, List.tail_suffix _, List.suffix_refl _⟩

/-- A complete page write is found in the file, and the other pages stay. -/
theorem holdsPage_pwriteFile {host after : Host} {page : Page} {pageId : ℕ}
    (h : after.dataFile = pwriteFile host.dataFile (pageId * pageSize) page.bytes) :
    after.HoldsPage pageId page ∧
      ∀ other image, other ≠ pageId → host.HoldsPage other image → after.HoldsPage other image := by
  constructor
  · have hself := slice_pwriteFile_self host.dataFile (pageId * pageSize) page.bytes
    rwa [page.size, ← h] at hself
  · intro other image hother hholds
    have hdisjoint : other * pageSize + pageSize ≤ pageId * pageSize ∨
        pageId * pageSize + page.bytes.length ≤ other * pageSize := by
      rw [page.length_bytes, pageSize]
      omega
    have hslice := slice_pwriteFile_of_disjoint host.dataFile (pageId * pageSize) page.bytes
      (other * pageSize) pageSize hholds.le_length hdisjoint
    rw [Host.HoldsPage, h, hslice]
    exact hholds

/-- The next write is not short when none of the coming writes is. -/
theorem not_isShort_headD {writes : List IoOutcome} (h : ∀ outcome ∈ writes, ¬outcome.IsShort) :
    ¬(writes.headD .full).IsShort := by
  cases writes with
  | nil => simp [IoOutcome.IsShort]
  | cons outcome writes => exact h outcome List.mem_cons_self

/-- Writing a dirty frame to its place in the file, when the write is not short. -/
theorem writesBack_write {st : Storage} {i pageId : ℕ} {page : Page}
    (hdirty : (st.bpm.frame i).isDirty) (hpage : (st.bpm.frame i).pageId = pageId)
    (hdata : (st.bpm.frame i).pageData = page)
    (hshort : ¬(st.host.pageWrites.headD .full).IsShort) :
    let write := ftsVfsWriteSync st.host page.bytes (pageId * pageSize)
    WritesBack st { st with host := write.2 } ∧
      (0 ≤ write.1 → write.2.HoldsPage pageId page) ∧
      (st.host.pageWrites.headD .full = .full → 0 ≤ write.1) := by
  intro write
  have hlog : SameLog st.host write.2 := sameLog_ftsVfsWriteSync _ _ _
  obtain ⟨hneg, hfile, herror⟩ | ⟨hnonneg, hfile⟩ := ftsVfsWriteSync_cases hshort page pageId
  · refine ⟨.of_bpm rfl hfile rfl hlog, fun h => absurd h (not_le.mpr hneg), fun h => ?_⟩
    rw [herror] at h
    exact absurd h (by decide)
  · obtain ⟨hself, hothers⟩ := holdsPage_pwriteFile hfile
    refine ⟨⟨rfl, rfl, rfl, fun _ => rfl, fun _ => rfl, fun _ => rfl, fun _ h => h, ?_, ?_, ?_, rfl, hlog⟩,
      fun _ => hself,
      fun _ => hnonneg⟩
    · intro j hj hclean
      exact absurd hj hclean
    · intro other image himage
      by_cases hsame : other = pageId
      · subst hsame
        exact Or.inr ⟨i, hdirty, hpage, hdata ▸ hself⟩
      · exact Or.inl (hothers other image hsame himage)
    · intro extent hbound
      have hextent : pageId < extent := hpage ▸ hbound i hdirty
      have hdata : page.bytes ≠ [] := List.ne_nil_of_length_pos (by rw [page.length_bytes]; omega)
      change write.2.dataFile.length ≤ _
      rw [hfile, length_pwriteFile _ _ hdata, page.size]
      have hmul : pageId * pageSize + pageSize ≤ extent * pageSize := by
        rw [← Nat.succ_mul]
        exact Nat.mul_le_mul_right _ hextent
      omega

/-- Marking a frame clean leaves its page and the other frames alone. -/
theorem Storage.frame_markClean (st : Storage) (i j : ℕ) :
    (st.markClean i).bpm.frame j =
      if i = j then { st.bpm.frame j with isDirty := false } else st.bpm.frame j := by
  by_cases hij : i = j
  · subst hij
    rw [if_pos rfl, markClean]
    by_cases hi : i < st.bpm.poolSize
    · rw [st.bpm.frame_setFrame_self hi]
    · rw [BufferPoolManager.frame_of_le _ (by simpa using hi), st.bpm.frame_of_le (not_lt.mp hi)]
      rfl
  · rw [if_neg hij, markClean, st.bpm.frame_setFrame_of_ne hij]

/-- A frame that is in the file in full may be marked clean. -/
theorem writesBack_markClean {st : Storage} {i : ℕ}
    (h : st.host.HoldsPage (st.bpm.frame i).pageId (st.bpm.frame i).pageData) :
    WritesBack st (st.markClean i) := by
  refine ⟨st.bpm.poolSize_setFrame i _, rfl, rfl, ?_, ?_, ?_, ?_, ?_, fun _ _ hpage => Or.inl hpage,
    fun _ _ => le_max_left _ _, rfl, .refl _⟩
  · intro j
    rw [st.frame_markClean]
    split_ifs <;> rfl
  · intro j
    rw [st.frame_markClean]
    split_ifs <;> rfl
  · intro j
    rw [st.frame_markClean]
    split_ifs <;> rfl
  · intro j hdirty
    rw [st.frame_markClean] at hdirty
    split_ifs at hdirty
    exact hdirty
  · intro j hdirty hclean
    rw [st.frame_markClean] at hclean
    split_ifs at hclean with hij
    · exact hij ▸ h
    · exact absurd hdirty hclean

/-- Flushing the log changes neither the pool nor the data file. -/
theorem Storage.flushWal_spec (st : Storage) :
    st.flushWal.bpm = st.bpm ∧ st.flushWal.host.dataFile = st.host.dataFile ∧
      st.flushWal.host.pageWrites = st.host.pageWrites ∧ st.flushWal.wal = st.wal ∧
      SameLog st.host st.flushWal.host := by
  unfold flushWal
  cases hwal : st.wal with
  | none => exact ⟨rfl, rfl, rfl, hwal, .refl _⟩
  | some wal =>
    have hsync : SameLog st.host (walFlush wal st.host).2 ∧
        (walFlush wal st.host).2.dataFile = st.host.dataFile ∧
        (walFlush wal st.host).2.pageWrites = st.host.pageWrites := by
      simp only [walFlush, Host.syncWal]
      split_ifs
      · split <;> exact ⟨⟨rfl, rfl, rfl, List.suffix_refl _, List.tail_suffix _⟩, rfl, rfl⟩
      · exact ⟨.refl _, rfl, rfl⟩
    exact ⟨rfl, hsync.2.1, hsync.2.2, rfl, hsync.1⟩

/-- Flushing the log is a special case of writing back. -/
theorem writesBack_flushWal (st : Storage) : WritesBack st st.flushWal := by
  obtain ⟨hbpm, hfile, -, hwal, hlog⟩ := st.flushWal_spec
  exact .of_bpm hbpm hfile hwal hlog

/-! ## The three paths -/

/-- Flushing one page, when its write is not short. A complete write leaves the page clean. -/
theorem writesBack_bufferPoolFlushPage {st : Storage} (hbpm : st.bpm.WellFormed) (pageId : ℕ)
    (hshort : ∀ i, st.bpm.frameIndex pageId = some i → (st.bpm.frame i).isDirty →
      ¬(st.host.pageWrites.headD .full).IsShort) :
    WritesBack st (bufferPoolFlushPage st pageId).2 ∧
      ∀ i, st.bpm.frameIndex pageId = some i → pageId ≠ invalidPageId → 0 ≤ st.bpm.diskFd →
        st.host.pageWrites.headD .full = .full →
        ¬((bufferPoolFlushPage st pageId).2.bpm.frame i).isDirty := by
  obtain ⟨hbpm', -, hwrites', -, -⟩ := st.flushWal_spec
  unfold bufferPoolFlushPage
  split_ifs with hinvalid
  · exact ⟨.refl st, fun _ _ hvalid => absurd hinvalid hvalid⟩
  cases hindex : st.bpm.frameIndex pageId with
  | none => exact ⟨.refl st, by simp⟩
  | some i =>
    obtain ⟨-, hpage⟩ := BufferPoolManager.frameIndex_some hindex
    simp only
    by_cases hdirty : (st.bpm.frame i).isDirty ∧ 0 ≤ st.bpm.diskFd
    · rw [if_pos hdirty]
      have hdirty' : (st.flushWal.bpm.frame i).isDirty := by
        rw [hbpm']
        exact hdirty.1
      obtain ⟨hback, hheld, hfull⟩ := writesBack_write hdirty' (by rw [hbpm', hpage]) rfl
        (by rw [hwrites']; exact hshort i hindex hdirty.1)
      have hback' := (writesBack_flushWal st).trans hbpm hback
      rw [hwrites'] at hfull
      simp only [hbpm'] at hback' hheld hfull ⊢
      split_ifs with hres
      · exact ⟨hback', fun j _ _ _ houtcome => absurd (hfull houtcome) (not_le.mpr hres)⟩
      · refine ⟨hback'.trans hbpm (writesBack_markClean ?_), fun j hj _ _ _ => ?_⟩
        · simp only [hpage]
          exact hheld (not_lt.mp hres)
        · rw [Option.some.injEq] at hj
          simp [Storage.frame_markClean, hj]
    · rw [if_neg hdirty]
      refine ⟨.refl st, fun j hj _ hfd _ => ?_⟩
      rw [Option.some.injEq] at hj
      exact hj ▸ fun hd => hdirty ⟨hd, hfd⟩

/-- The victim search moves the hand and then writes back. When the write of a dirty victim
completes, the victim is a clean frame of the pool. -/
theorem writesBack_findVictimFrame {st : Storage} (hbpm : st.bpm.WellFormed)
    (hopen : 0 ≤ st.bpm.diskFd)
    (hwrite : ∀ i, st.bpm.victim = some i → (st.bpm.frame i).isDirty →
      st.host.pageWrites.headD .full = .full) :
    WritesBack { st with bpm := st.bpm.scanned } (findVictimFrame st).2 ∧
      (0 ≤ (findVictimFrame st).1 → (findVictimFrame st).1.toNat < st.bpm.poolSize ∧
        ¬((findVictimFrame st).2.bpm.frame (findVictimFrame st).1.toNat).isDirty) := by
  obtain ⟨hscanned, hfound⟩ := hbpm.scan
  rw [findVictimFrame_eq]
  cases hvictim : st.bpm.victim with
  | none => exact ⟨.refl _, fun h => absurd h (by simp)⟩
  | some i =>
    obtain ⟨hi, -⟩ := hfound i hvictim
    have hindex (hvalid : (st.bpm.frame i).pageId ≠ invalidPageId) :
        st.bpm.scanned.frameIndex (st.bpm.frame i).pageId = some i :=
      hbpm.distinct.frameIndex_frame hvalid
    simp only
    split_ifs with hdirty
    · have hfull := hwrite i hvictim hdirty.2
      have hscanned' : ({ st with bpm := st.bpm.scanned } : Storage).bpm.WellFormed := hscanned
      obtain ⟨hback, hclean⟩ := writesBack_bufferPoolFlushPage hscanned' (st.bpm.frame i).pageId
        (fun _ _ _ => by rw [hfull]; simp [IoOutcome.IsShort])
      refine ⟨hback, fun hnonneg => ?_⟩
      obtain ⟨-, htoNat⟩ := toCInt_nonneg (hi.trans hbpm.size) hnonneg
      rw [htoNat]
      exact ⟨hi, hclean i (hindex hdirty.1) hdirty.1 hopen hfull⟩
    · refine ⟨.refl _, fun hnonneg => ?_⟩
      obtain ⟨-, htoNat⟩ := toCInt_nonneg (hi.trans hbpm.size) hnonneg
      rw [htoNat]
      exact ⟨hi, fun hd => hdirty ⟨hbpm.dirtyNamed i hd, hd⟩⟩

/-- A batch of writes of dirty frames, none of them short: the frames reported as completed are
in the file in full. -/
theorem writesBack_batch (maxEvents : ℕ) {queued : List ℕ} {st : Storage} (completed : List ℕ)
    (hbpm : st.bpm.WellFormed) (hqueued : ∀ i ∈ queued, (st.bpm.frame i).isDirty)
    (hshort : ∀ outcome ∈ st.host.pageWrites, ¬outcome.IsShort)
    (hcompleted : ∀ i ∈ completed,
      st.host.HoldsPage (st.bpm.frame i).pageId (st.bpm.frame i).pageData) :
    let result := queued.foldl (ftsVfsBatchComplete st.bpm maxEvents) (completed, st.host)
    WritesBack st { st with host := result.2 } ∧ ∀ i ∈ result.1,
      result.2.HoldsPage (st.bpm.frame i).pageId (st.bpm.frame i).pageData := by
  induction queued generalizing st completed with
  | nil => exact ⟨.refl st, hcompleted⟩
  | cons i queued ih =>
    obtain ⟨hback, hheld, -⟩ := writesBack_write (hqueued i List.mem_cons_self) rfl rfl
      (not_isShort_headD hshort)
    set write := ftsVfsWriteSync st.host (st.bpm.frame i).pageData.bytes
      ((st.bpm.frame i).pageId * pageSize) with hwrite
    have hstep : ftsVfsBatchComplete st.bpm maxEvents (completed, st.host) i =
        (if completed.length < maxEvents ∧ 0 ≤ write.1 then completed ++ [i] else completed,
          write.2) := by
      simp only [ftsVfsBatchComplete, ← hwrite]
      split_ifs <;> rfl
    have hkept : ∀ j ∈ if completed.length < maxEvents ∧ 0 ≤ write.1 then completed ++ [i]
        else completed, write.2.HoldsPage (st.bpm.frame j).pageId (st.bpm.frame j).pageData := by
      intro j hj
      split_ifs at hj with hadded
      · rw [List.mem_append, List.mem_singleton] at hj
        obtain hj | rfl := hj
        · exact hback.holdsPage hbpm (hcompleted j hj)
        · exact hheld hadded.2
      · exact hback.holdsPage hbpm (hcompleted j hj)
    have hbpm' : ({ st with host := write.2 } : Storage).bpm.WellFormed := hbpm
    obtain ⟨hrest, hresult⟩ := ih _ hbpm'
      (fun j hj => hqueued j (List.mem_cons_of_mem i hj))
      (fun outcome houtcome => hshort outcome (hback.log.pageWrites.subset houtcome)) hkept
    rw [List.foldl_cons, hstep]
    exact ⟨hback.trans hbpm hrest, hresult⟩

/-- Marking frames clean that are in the file in full. -/
theorem writesBack_markClean_all {completed : List ℕ} {st : Storage} (hbpm : st.bpm.WellFormed)
    (h : ∀ i ∈ completed, st.host.HoldsPage (st.bpm.frame i).pageId (st.bpm.frame i).pageData) :
    WritesBack st (completed.foldl Storage.markClean st) := by
  induction completed generalizing st with
  | nil => exact .refl st
  | cons i completed ih =>
    have hback := writesBack_markClean (h i List.mem_cons_self)
    rw [List.foldl_cons]
    refine hback.trans hbpm (ih (hback.wellFormed hbpm) fun j hj => ?_)
    rw [hback.pageId, hback.pageData]
    exact h j (List.mem_cons_of_mem i hj)

/-- Submitting a batch of dirty frames. -/
theorem writesBack_submitBatch {st : Storage} {queued : List ℕ} (hbpm : st.bpm.WellFormed)
    (hqueued : ∀ i ∈ queued, (st.bpm.frame i).isDirty)
    (hshort : ∀ outcome ∈ st.host.pageWrites, ¬outcome.IsShort) :
    WritesBack st (st.submitBatch queued) := by
  obtain ⟨hback, hheld⟩ := writesBack_batch vfsQueueSize [] hbpm hqueued hshort (by simp)
  exact hback.trans hbpm (writesBack_markClean_all hbpm hheld)

/-- With fewer queued writes than the batch limit the queue has room, and the synchronous write
of the flush loop is not reached. -/
theorem flushAllStep_eq {st : Storage} {queued : List ℕ} (hlength : queued.length < flushBatchLimit)
    (i : ℕ) :
    flushAllStep (st, queued) i =
      if (st.bpm.frame i).pageId ≠ invalidPageId ∧ (st.bpm.frame i).isDirty ∧ 0 ≤ st.bpm.diskFd then
        if flushBatchLimit ≤ (queued ++ [i]).length then (st.submitBatch (queued ++ [i]), [])
        else (st, queued ++ [i])
      else (st, queued) := by
  have hroom : queued.length < vfsQueueSize := hlength.trans (by decide)
  simp only [flushAllStep, if_pos hroom]

/-- One frame of the flush loop, when no write is short. The frames that stay queued are dirty and
fewer than the batch limit. -/
theorem writesBack_flushAllStep {st : Storage} {queued : List ℕ} (hbpm : st.bpm.WellFormed)
    (hqueued : ∀ i ∈ queued, (st.bpm.frame i).isDirty) (hlength : queued.length < flushBatchLimit)
    (hshort : ∀ outcome ∈ st.host.pageWrites, ¬outcome.IsShort) (i : ℕ) :
    WritesBack st (flushAllStep (st, queued) i).1 ∧
      (∀ j ∈ (flushAllStep (st, queued) i).2,
        ((flushAllStep (st, queued) i).1.bpm.frame j).isDirty) ∧
      (flushAllStep (st, queued) i).2.length < flushBatchLimit := by
  rw [flushAllStep_eq hlength]
  split_ifs with hdirty hfull
  · have hall : ∀ j ∈ queued ++ [i], (st.bpm.frame j).isDirty := by
      intro j hj
      rw [List.mem_append, List.mem_singleton] at hj
      obtain hj | rfl := hj
      · exact hqueued j hj
      · exact hdirty.2.1
    exact ⟨writesBack_submitBatch hbpm hall hshort, by simp, by simp [flushBatchLimit]⟩
  · refine ⟨.refl st, fun j hj => ?_, not_le.mp hfull⟩
    rw [List.mem_append, List.mem_singleton] at hj
    obtain hj | rfl := hj
    · exact hqueued j hj
    · exact hdirty.2.1
  · exact ⟨.refl st, hqueued, hlength⟩

/-- The flush loop, when no write is short. -/
theorem writesBack_flushAllLoop {indices queued : List ℕ} {st : Storage} (hbpm : st.bpm.WellFormed)
    (hqueued : ∀ i ∈ queued, (st.bpm.frame i).isDirty) (hlength : queued.length < flushBatchLimit)
    (hshort : ∀ outcome ∈ st.host.pageWrites, ¬outcome.IsShort) :
    let result := indices.foldl flushAllStep (st, queued)
    WritesBack st result.1 ∧ ∀ i ∈ result.2, (result.1.bpm.frame i).isDirty := by
  induction indices generalizing st queued with
  | nil => exact ⟨.refl st, hqueued⟩
  | cons i indices ih =>
    obtain ⟨hstep, hqueued', hlength'⟩ := writesBack_flushAllStep hbpm hqueued hlength hshort i
    obtain ⟨hrest, hresult⟩ := ih (hstep.wellFormed hbpm) hqueued' hlength'
      (fun outcome houtcome => hshort outcome (hstep.log.pageWrites.subset houtcome))
    exact ⟨hstep.trans hbpm hrest, hresult⟩

/-- The flush loop and its last batch, when no write is short. -/
theorem writesBack_flushFrames {st : Storage} (hbpm : st.bpm.WellFormed)
    (hshort : ∀ outcome ∈ st.host.pageWrites, ¬outcome.IsShort) :
    WritesBack st st.flushFrames := by
  obtain ⟨hloop, hqueued⟩ := @writesBack_flushAllLoop (List.range st.bpm.poolSize) [] st hbpm
    (by simp) (by decide) hshort
  simp only [Storage.flushFrames]
  split_ifs
  · refine hloop.trans hbpm (writesBack_submitBatch (hloop.wellFormed hbpm) hqueued ?_)
    exact fun outcome houtcome => hshort outcome (hloop.log.pageWrites.subset houtcome)
  · exact hloop

/-- Flushing the whole pool, when no write is short. -/
theorem writesBack_bufferPoolFlushAll {st : Storage} (hbpm : st.bpm.WellFormed)
    (hshort : ∀ outcome ∈ st.host.pageWrites, ¬outcome.IsShort) :
    WritesBack st (bufferPoolFlushAll st) := by
  have hlog := writesBack_flushWal st
  unfold bufferPoolFlushAll
  simp only
  split_ifs
  · refine hlog.trans hbpm (writesBack_flushFrames (hlog.wellFormed hbpm) ?_)
    exact fun outcome houtcome => hshort outcome (hlog.log.pageWrites.subset houtcome)
  · exact writesBack_flushFrames hbpm hshort

end FtsUring
