import FtsUring.Storage.PoolDurability

/-!
# Frames under pool operations

The paths that write pages change nothing of a frame but its dirty flag, whatever the disk does. A fetch is
then one of three steps: it pins the page where it is, it finds no victim, or it loads the page into a frame
that is empty or not pinned.
-/

namespace FtsUring

open Foundation

/-- A frame that the victim search may take. -/
def Frame.Free (frame : Frame) : Prop := frame.pageId = invalidPageId ∨ frame.pinCount = 0

/-- The frames are the same but for dirty flags, and so is the clock hand. -/
structure KeepsFrames (before after : BufferPoolManager) : Prop where
  poolSize : after.poolSize = before.poolSize
  diskFd : after.diskFd = before.diskFd
  clockHand : after.clockHand = before.clockHand
  frame : ∀ i, ∃ isDirty, after.frame i = { before.frame i with isDirty }

namespace KeepsFrames

variable {before mid after : BufferPoolManager}

/-- Nothing happened. -/
theorem refl (bpm : BufferPoolManager) : KeepsFrames bpm bpm :=
  ⟨rfl, rfl, rfl, fun i => ⟨(bpm.frame i).isDirty, rfl⟩⟩

/-- Two steps. -/
theorem trans (h : KeepsFrames before mid) (h' : KeepsFrames mid after) : KeepsFrames before after := by
  refine ⟨h'.poolSize.trans h.poolSize, h'.diskFd.trans h.diskFd, h'.clockHand.trans h.clockHand, fun i => ?_⟩
  obtain ⟨first, hfirst⟩ := h.frame i
  obtain ⟨second, hsecond⟩ := h'.frame i
  exact ⟨second, by rw [hsecond, hfirst]⟩

/-- The pages of the frames. -/
theorem pageId (h : KeepsFrames before after) (i : ℕ) : (after.frame i).pageId = (before.frame i).pageId := by
  obtain ⟨isDirty, hframe⟩ := h.frame i
  rw [hframe]

/-- The pins of the frames. -/
theorem pinCount (h : KeepsFrames before after) (i : ℕ) :
    (after.frame i).pinCount = (before.frame i).pinCount := by
  obtain ⟨isDirty, hframe⟩ := h.frame i
  rw [hframe]

/-- The bytes of the frames. -/
theorem pageData (h : KeepsFrames before after) (i : ℕ) :
    (after.frame i).pageData = (before.frame i).pageData := by
  obtain ⟨isDirty, hframe⟩ := h.frame i
  rw [hframe]

/-- A page that no frame holds is still held by none. -/
theorem frameIndex_none (h : KeepsFrames before after) {pageId : ℕ} (hnone : before.frameIndex pageId = none) :
    after.frameIndex pageId = none := by
  apply BufferPoolManager.frameIndex_eq_none
  intro i hi
  rw [h.pageId]
  exact BufferPoolManager.frameIndex_none hnone (h.poolSize ▸ hi)

/-- Marking a frame clean. -/
theorem markClean (st : Storage) (i : ℕ) : KeepsFrames st.bpm (st.markClean i).bpm := by
  refine ⟨BufferPoolManager.poolSize_setFrame _ _ _, rfl, rfl, fun j => ?_⟩
  rw [st.frame_markClean]
  split_ifs
  · exact ⟨false, rfl⟩
  · exact ⟨(st.bpm.frame j).isDirty, rfl⟩

/-- Marking frames clean. -/
theorem markClean_all (completed : List ℕ) (st : Storage) :
    KeepsFrames st.bpm (completed.foldl Storage.markClean st).bpm := by
  induction completed generalizing st with
  | nil => exact .refl _
  | cons i completed ih => exact (markClean st i).trans (ih (st.markClean i))

/-- Writing one page back. -/
theorem flushPage (st : Storage) (pageId : ℕ) : KeepsFrames st.bpm (bufferPoolFlushPage st pageId).2.bpm := by
  have hlog := st.flushWal_spec.1
  rw [bufferPoolFlushPage]
  split_ifs with hinvalid
  · exact .refl _
  cases st.bpm.frameIndex pageId with
  | none => exact .refl _
  | some i =>
    dsimp only
    split_ifs with hdirty hwrite
    · exact hlog ▸ .refl _
    · refine KeepsFrames.trans ?_ (markClean _ i)
      exact hlog ▸ .refl _
    · exact .refl _

/-- Submitting a batch. -/
theorem submitBatch (st : Storage) (queued : List ℕ) : KeepsFrames st.bpm (st.submitBatch queued).bpm := by
  rw [Storage.submitBatch]
  cases ftsVfsBatchSubmitAndWait st.bpm queued vfsQueueSize st.host with
  | mk completed host => exact markClean_all completed { st with host }

/-- One frame of the flush loop; fewer writes than the batch limit stay queued. -/
theorem flushAllStep (st : Storage) {queued : List ℕ} (hlength : queued.length < flushBatchLimit) (i : ℕ) :
    KeepsFrames st.bpm (flushAllStep (st, queued) i).1.bpm ∧
      (FtsUring.flushAllStep (st, queued) i).2.length < flushBatchLimit := by
  rw [flushAllStep_eq hlength]
  split_ifs with hdirty hfull
  · exact ⟨submitBatch st _, Nat.succ_pos _⟩
  · exact ⟨.refl _, not_le.mp hfull⟩
  · exact ⟨.refl _, hlength⟩

/-- The flush loop. -/
theorem flushAllLoop (indices : List ℕ) {st : Storage} {queued : List ℕ}
    (hlength : queued.length < flushBatchLimit) :
    KeepsFrames st.bpm (indices.foldl FtsUring.flushAllStep (st, queued)).1.bpm := by
  induction indices generalizing st queued with
  | nil => exact .refl _
  | cons i indices ih =>
    obtain ⟨hstep, hlength'⟩ := flushAllStep st hlength i
    exact hstep.trans (ih hlength')

/-- Flushing the whole pool. -/
theorem flushAll (st : Storage) : KeepsFrames st.bpm (bufferPoolFlushAll st).bpm := by
  have hframes : ∀ st : Storage, KeepsFrames st.bpm st.flushFrames.bpm := by
    intro st
    have hloop := @flushAllLoop (List.range st.bpm.poolSize) st [] (by decide)
    simp only [Storage.flushFrames]
    split_ifs
    · exact hloop.trans (submitBatch _ _)
    · exact hloop
  rw [bufferPoolFlushAll]
  split_ifs
  · exact st.flushWal_spec.1 ▸ hframes st.flushWal
  · exact hframes st

end KeepsFrames

/-! ## Lookups and the pages of frames -/

namespace BufferPoolManager

/-- A lookup depends on the pages of the frames only. -/
theorem frameIndex_eq_of_pageId {before after : BufferPoolManager} (hsize : after.poolSize = before.poolSize)
    (h : ∀ i, (after.frame i).pageId = (before.frame i).pageId) (pageId : ℕ) :
    after.frameIndex pageId = before.frameIndex pageId := by
  have hpages : after.frames.map Frame.pageId = before.frames.map Frame.pageId := by
    apply List.ext_getElem
    · simpa [poolSize] using hsize
    · intro i hi hi'
      rw [List.length_map] at hi hi'
      have hframe := h i
      rw [frame, frame, List.getD_eq_getElem _ _ hi, List.getD_eq_getElem _ _ hi'] at hframe
      simpa using hframe
  have hfind : ∀ bpm : BufferPoolManager, bpm.frameIndex pageId =
      (bpm.frames.map Frame.pageId).findIdx? fun id => id == pageId := by
    intro bpm
    rw [frameIndex, List.findIdx?_map]
    rfl
  rw [hfind, hfind, hpages]

/-- A frame that alone holds a page is found for it. -/
theorem frameIndex_eq_some {bpm : BufferPoolManager} {pageId i : ℕ} (hi : i < bpm.poolSize)
    (hpage : (bpm.frame i).pageId = pageId)
    (hother : ∀ j < bpm.poolSize, j ≠ i → (bpm.frame j).pageId ≠ pageId) :
    bpm.frameIndex pageId = some i := by
  cases hfound : bpm.frameIndex pageId with
  | none => exact absurd hpage (frameIndex_none hfound hi)
  | some j =>
    obtain ⟨hj, hpagej⟩ := frameIndex_some hfound
    by_cases hij : j = i
    · rw [hij]
    · exact absurd hpagej (hother j hj hij)

end BufferPoolManager

/-! ## The three kinds of fetches -/

/-- Move the clock hand and write a dirty victim back. -/
def Storage.writeVictim (st : Storage) (hand i : ℕ) : Storage :=
  let moved := { st with bpm := { st.bpm with clockHand := hand } }
  if (st.bpm.frame i).pageId ≠ invalidPageId ∧ (st.bpm.frame i).isDirty then
    (bufferPoolFlushPage moved (st.bpm.frame i).pageId).2
  else moved

/-- Writing a victim back moves the hand and keeps the frames. -/
theorem keepsFrames_writeVictim (st : Storage) (hand i : ℕ) :
    KeepsFrames { st.bpm with clockHand := hand } (st.writeVictim hand i).bpm := by
  rw [Storage.writeVictim]
  split_ifs
  · exact KeepsFrames.flushPage { st with bpm := { st.bpm with clockHand := hand } } _
  · exact .refl _

/-- What a fetch does: it pins the frame of the page, or finds all frames pinned, or loads the page into a
free frame, that under the hand if it is free, after the victim was written back. -/
inductive Fetches (st : Storage) (pageId : ℕ) : Option ℕ → Storage → Prop
  | hit {i : ℕ} (hfound : st.bpm.frameIndex pageId = some i) :
    Fetches st pageId (some i) { st with
      bpm := st.bpm.setFrame i
        { st.bpm.frame i with pinCount := ((st.bpm.frame i).pinCount + 1) % 2 ^ 32 } }
  | pinned {hand : ℕ} (habsent : st.bpm.frameIndex pageId = none)
    (hall : ∀ i < st.bpm.poolSize, ¬(st.bpm.frame i).Free) (hhand : hand < st.bpm.poolSize) :
    Fetches st pageId none { st with bpm := { st.bpm with clockHand := hand } }
  | load {i hand : ℕ} {page : Page} {host : Host} (habsent : st.bpm.frameIndex pageId = none)
    (hi : i < st.bpm.poolSize) (hfree : (st.bpm.frame i).Free)
    (hfirst : (st.bpm.frame st.bpm.clockHand).Free → i = st.bpm.clockHand)
    (hhand : hand < st.bpm.poolSize)
    (hread : 0 ≤ st.bpm.diskFd → readPageOrFormat (st.writeVictim hand i).host pageId = (page, host)) :
    Fetches st pageId (some i) { st.writeVictim hand i with
      bpm := (st.writeVictim hand i).bpm.setFrame i ⟨pageId, 1, false, page⟩, host }

/-- The clock scan takes the frame under the hand if that is free. -/
theorem clockScan_of_free {frames : List Frame} {attempts hand : ℕ} (hattempts : attempts ≠ 0)
    (hfree : (frames.getD hand Frame.empty).Free) : (clockScan frames attempts hand).1 = some hand := by
  obtain ⟨attempts, rfl⟩ := Nat.exists_eq_succ_of_ne_zero hattempts
  rw [clockScan]
  exact congrArg Prod.fst (if_pos hfree)

/-- The victim search writes the victim back. -/
theorem findVictimFrame_of_some {st : Storage} {i : ℕ} (h : st.bpm.victim = some i) :
    findVictimFrame st = (toCInt i, st.writeVictim st.bpm.scanned.clockHand i) := by
  rw [findVictimFrame_eq, h]
  rfl

/-- In a pool of fewer than `2 ^ 31` frames a fetch is of one of these kinds. -/
theorem fetches_bufferPoolFetchPage {st : Storage} (hhand : st.bpm.clockHand < st.bpm.poolSize)
    (hsmall : st.bpm.poolSize < 2 ^ 31) (pageId : ℕ) :
    Fetches st pageId (bufferPoolFetchPage st pageId).1 (bufferPoolFetchPage st pageId).2 := by
  have hattempts : clockAttempts st.bpm.poolSize ≠ 0 := by
    rw [clockAttempts]
    omega
  rw [bufferPoolFetchPage]
  cases hfound : st.bpm.frameIndex pageId with
  | some i => exact .hit hfound
  | none =>
    obtain ⟨hnext, hvictim⟩ := clockScan_spec st.bpm.frames (clockAttempts st.bpm.poolSize) hhand
    cases hscan : st.bpm.victim with
    | none =>
      rw [findVictimFrame_eq, hscan]
      refine .pinned hfound (fun i hi hfree => ?_) hnext
      have hsome := BufferPoolManager.victim_isSome_of_free hhand hsmall hi hfree
      rw [hscan] at hsome
      cases hsome
    | some i =>
      obtain ⟨hi, hfree⟩ := hvictim i hscan
      have hcint : toCInt i = i := if_pos (hi.trans hsmall)
      have hnonneg : ¬toCInt i < 0 := by omega
      have hindex : (toCInt i).toNat = i := by rw [hcint, Int.toNat_natCast]
      have hfirst : (st.bpm.frame st.bpm.clockHand).Free → i = st.bpm.clockHand := by
        intro hhere
        rw [BufferPoolManager.victim, clockScan_of_free hattempts hhere] at hscan
        exact (Option.some.inj hscan).symm
      have hdisk := (keepsFrames_writeVictim st st.bpm.scanned.clockHand i).diskFd
      rw [findVictimFrame_of_some hscan]
      dsimp only
      rw [if_neg hnonneg, hindex, hdisk]
      split_ifs with hopen
      · exact .load hfound hi hfree hfirst hnext fun _ => rfl
      · exact .load hfound hi hfree hfirst hnext fun hno => absurd hno hopen

end FtsUring
