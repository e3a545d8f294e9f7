import FtsUring.Storage.PoolFrames

/-!
# The representation of the buffer pool

Whatever pages are fetched, unpinned and flushed, and whatever the disk does, no page is in two frames, the
clock hand stands on a frame, and a pinned frame keeps its page and its bytes. A fetch returns NULL exactly
when the page is not in the pool and every frame is pinned.
-/

namespace FtsUring

open Foundation

namespace BufferPoolManager

/-- No two frames hold the same page, the clock hand stands on a frame, and a frame that holds no page is not
pinned. -/
structure Sound (bpm : BufferPoolManager) : Prop where
  distinct : bpm.DistinctPages
  hand : bpm.clockHand < bpm.poolSize
  unpinned : ∀ i, (bpm.frame i).pageId = invalidPageId → (bpm.frame i).pinCount = 0

/-- Every frame is pinned. -/
def AllPinned (bpm : BufferPoolManager) : Prop := ∀ i < bpm.poolSize, 0 < (bpm.frame i).pinCount

variable {bpm after : BufferPoolManager}

/-- Pages that are in one frame each stay so when the frames keep their pages. -/
theorem DistinctPages.of_pageId (h : bpm.DistinctPages)
    (hpages : ∀ i, (after.frame i).pageId = (bpm.frame i).pageId) : after.DistinctPages := by
  intro i j hi hij
  rw [hpages] at hi
  rw [hpages, hpages] at hij
  exact h i j hi hij

namespace Sound

/-- Changes of dirty flags keep the pool sound. -/
theorem keepsFrames (h : bpm.Sound) (hkeeps : KeepsFrames bpm after) : after.Sound := by
  refine ⟨h.distinct.of_pageId hkeeps.pageId, ?_, fun i hempty => ?_⟩
  · rw [hkeeps.clockHand, hkeeps.poolSize]
    exact h.hand
  · rw [hkeeps.pinCount]
    rw [hkeeps.pageId] at hempty
    exact h.unpinned i hempty

/-- Moving the clock hand to a frame keeps the pool sound. -/
theorem moveHand (h : bpm.Sound) {hand : ℕ} (hhand : hand < bpm.poolSize) :
    ({ bpm with clockHand := hand } : BufferPoolManager).Sound :=
  ⟨h.distinct, hhand, h.unpinned⟩

/-- Changing a frame that keeps its page keeps the pool sound. -/
theorem setFrame_same (h : bpm.Sound) {i : ℕ} (hi : i < bpm.poolSize) {frame : Frame}
    (hpage : frame.pageId = (bpm.frame i).pageId)
    (hpins : frame.pageId = invalidPageId → frame.pinCount = 0) : (bpm.setFrame i frame).Sound := by
  refine ⟨h.distinct.setFrame_same i frame hpage, by simpa using h.hand, fun j hempty => ?_⟩
  rw [bpm.frame_setFrame hi] at hempty ⊢
  split_ifs at hempty ⊢
  · exact hpins hempty
  · exact h.unpinned j hempty

/-- Loading a page that no frame holds keeps the pool sound. -/
theorem setFrame_new (h : bpm.Sound) {i : ℕ} (hi : i < bpm.poolSize) {frame : Frame}
    (hnew : bpm.frameIndex frame.pageId = none) (hpage : frame.pageId ≠ invalidPageId) :
    (bpm.setFrame i frame).Sound := by
  refine ⟨h.distinct.setFrame_new i frame hnew, by simpa using h.hand, fun j hempty => ?_⟩
  rw [bpm.frame_setFrame hi] at hempty ⊢
  split_ifs at hempty ⊢
  · exact absurd hempty hpage
  · exact h.unpinned j hempty

/-- A frame of a sound pool is free exactly when it is not pinned. -/
theorem free_iff (h : bpm.Sound) (i : ℕ) : (bpm.frame i).Free ↔ (bpm.frame i).pinCount = 0 :=
  ⟨fun hfree => hfree.elim (h.unpinned i) id, .inr⟩

end Sound

end BufferPoolManager

/-! ## One operation -/

/-- The operations fetch pages only. -/
def PoolOp.FetchesPages : PoolOp → Prop
  | .fetch pageId => pageId ≠ invalidPageId
  | _ => True

/-- What an operation promises: a pinned frame keeps its page, and its bytes unless the caller changes them,
and a fetch returns NULL exactly when the page is not in the pool and every frame is pinned. -/
structure PoolStep.Keeps (step : PoolStep) (st : Storage) : Prop where
  page : ∀ i, 0 < (st.bpm.frame i).pinCount →
    ((step.op.apply (step.storage st)).bpm.frame i).pageId = (st.bpm.frame i).pageId
  bytes : ∀ i, 0 < (st.bpm.frame i).pinCount → (∀ pageId change, step.op ≠ .modify pageId change) →
    ((step.op.apply (step.storage st)).bpm.frame i).pageData = (st.bpm.frame i).pageData
  null : ∀ pageId, step.op = .fetch pageId →
    ((bufferPoolFetchPage (step.storage st) pageId).1 = none ↔
      st.bpm.frameIndex pageId = none ∧ st.bpm.AllPinned)

/-- The pool is sound in every state of a run, and every operation keeps its promise. -/
def Storage.RunsSoundly (st : Storage) : List PoolStep → Prop
  | [] => st.bpm.Sound
  | step :: rest => st.bpm.Sound ∧ step.Keeps st ∧ (step.op.apply (step.storage st)).RunsSoundly rest

/-- A frame is the same, except for its pins and its dirty flag. -/
def Frame.SamePage (before after : Frame) : Prop :=
  after.pageId = before.pageId ∧ after.pageData = before.pageData

/-- Changing the pins and the dirty flag of a frame. -/
theorem samePage_setFrame (bpm : BufferPoolManager) {i : ℕ} (hi : i < bpm.poolSize) (pinCount : ℕ)
    (isDirty : Bool) (j : ℕ) :
    (bpm.frame j).SamePage ((bpm.setFrame i { bpm.frame i with pinCount, isDirty }).frame j) := by
  rw [bpm.frame_setFrame hi]
  split_ifs with hij
  · exact hij ▸ ⟨rfl, rfl⟩
  · exact ⟨rfl, rfl⟩

/-- A fetch keeps the pool sound and the pinned frames. -/
theorem BufferPoolManager.Sound.fetch {st after : Storage} {pageId : ℕ} {answer : Option ℕ}
    (h : st.bpm.Sound) (hvalid : pageId ≠ invalidPageId) (hfetch : Fetches st pageId answer after) :
    after.bpm.Sound ∧ after.bpm.poolSize = st.bpm.poolSize ∧
      (∀ i, 0 < (st.bpm.frame i).pinCount → (st.bpm.frame i).SamePage (after.bpm.frame i)) ∧
      (answer = none ↔ st.bpm.frameIndex pageId = none ∧ st.bpm.AllPinned) := by
  cases hfetch with
  | @hit i hfound =>
    obtain ⟨hi, hpage⟩ := BufferPoolManager.frameIndex_some hfound
    have hno : (st.bpm.frame i).pageId ≠ invalidPageId := fun hempty => hvalid (hpage.symm.trans hempty)
    refine ⟨h.setFrame_same hi rfl fun hempty => absurd hempty hno, BufferPoolManager.poolSize_setFrame _ _ _,
      fun j _ => samePage_setFrame _ hi _ _ j, ?_⟩
    rw [hfound]
    exact iff_of_false (Option.some_ne_none i) fun hnone => Option.some_ne_none i hnone.1
  | pinned habsent hall hhand =>
    refine ⟨h.moveHand hhand, rfl, fun _ _ => ⟨rfl, rfl⟩, iff_of_true rfl ⟨habsent, fun i hi => ?_⟩⟩
    exact Nat.pos_of_ne_zero fun hzero => hall i hi (.inr hzero)
  | @load i hand page host habsent hi hfree hfirst hhand hread =>
    have hkeeps := keepsFrames_writeVictim st hand i
    have hsound := (h.moveHand hhand).keepsFrames hkeeps
    have habsent' : (st.writeVictim hand i).bpm.frameIndex pageId = none := hkeeps.frameIndex_none habsent
    have hi' : i < (st.writeVictim hand i).bpm.poolSize := hkeeps.poolSize ▸ hi
    have hunpinned := (h.free_iff i).mp hfree
    refine ⟨hsound.setFrame_new hi' habsent' hvalid,
      (BufferPoolManager.poolSize_setFrame _ _ _).trans hkeeps.poolSize, fun j hpins => ?_, ?_⟩
    · have hne : i ≠ j := by
        rintro rfl
        exact absurd hunpinned hpins.ne'
      dsimp only
      rw [BufferPoolManager.frame_setFrame_of_ne _ hne]
      exact ⟨hkeeps.pageId j, hkeeps.pageData j⟩
    · refine iff_of_false (Option.some_ne_none i) fun hnone => ?_
      exact absurd hunpinned (hnone.2 i hi).ne'

/-- Unpinning keeps the pool sound and the pages of the frames. -/
theorem BufferPoolManager.Sound.unpin {st : Storage} (h : st.bpm.Sound) (pageId : ℕ) (isDirty : Bool)
    (hint : BufferPoolHint) :
    (bufferPoolUnpinPage st pageId isDirty hint).bpm.Sound ∧
      (bufferPoolUnpinPage st pageId isDirty hint).bpm.poolSize = st.bpm.poolSize ∧
      ∀ i, (st.bpm.frame i).SamePage ((bufferPoolUnpinPage st pageId isDirty hint).bpm.frame i) := by
  rw [bufferPoolUnpinPage]
  cases hfound : st.bpm.frameIndex pageId with
  | none => exact ⟨h, rfl, fun _ => ⟨rfl, rfl⟩⟩
  | some i =>
    obtain ⟨hi, -⟩ := BufferPoolManager.frameIndex_some hfound
    have hsize := st.bpm.poolSize_setFrame i
      { st.bpm.frame i with
        pinCount := (st.bpm.frame i).pinCount - 1, isDirty := (st.bpm.frame i).isDirty || isDirty }
    have hsound := @setFrame_same st.bpm h i hi
      { st.bpm.frame i with
        pinCount := (st.bpm.frame i).pinCount - 1, isDirty := (st.bpm.frame i).isDirty || isDirty }
      rfl fun hempty => by simp [h.unpinned i hempty]
    dsimp only
    split_ifs with hhint
    · exact ⟨hsound.moveHand (hsize ▸ hi), hsize, fun j => samePage_setFrame st.bpm hi _ _ j⟩
    · exact ⟨hsound, hsize, fun j => samePage_setFrame st.bpm hi _ _ j⟩

/-- A change of a pinned page keeps the pool sound and the pages of the frames. -/
theorem BufferPoolManager.Sound.modify {st : Storage} (h : st.bpm.Sound) (pageId : ℕ) (change : Page → Page) :
    (modifyPinnedPage st pageId change).bpm.Sound ∧
      (modifyPinnedPage st pageId change).bpm.poolSize = st.bpm.poolSize ∧
      ∀ i, ((modifyPinnedPage st pageId change).bpm.frame i).pageId = (st.bpm.frame i).pageId := by
  rw [modifyPinnedPage]
  cases hfound : st.bpm.frameIndex pageId with
  | none => exact ⟨h, rfl, fun _ => rfl⟩
  | some i =>
    obtain ⟨hi, -⟩ := BufferPoolManager.frameIndex_some hfound
    dsimp only
    split_ifs with hpins
    · refine ⟨h.setFrame_same hi rfl (h.unpinned i), BufferPoolManager.poolSize_setFrame _ _ _, fun j => ?_⟩
      rw [st.bpm.frame_setFrame hi]
      split_ifs with hij
      · rw [← hij]
      · rfl
    · exact ⟨h, rfl, fun _ => rfl⟩

/-! ## Runs -/

/-- One step of a run. -/
theorem BufferPoolManager.Sound.step {st : Storage} (h : st.bpm.Sound) (hsmall : st.bpm.poolSize < 2 ^ 31)
    {step : PoolStep} (hpages : step.op.FetchesPages) :
    (step.op.apply (step.storage st)).bpm.Sound ∧
      (step.op.apply (step.storage st)).bpm.poolSize = st.bpm.poolSize ∧ step.Keeps st := by
  have hstart : (step.storage st).bpm.Sound := h
  obtain ⟨op, pageReads, pageWrites, walSyncs⟩ := step
  cases op with
  | fetch pageId =>
    have hfetch := @fetches_bufferPoolFetchPage (PoolStep.storage ⟨.fetch pageId, pageReads, pageWrites,
      walSyncs⟩ st) h.hand hsmall pageId
    obtain ⟨hsound, hsize, hkept, hnull⟩ := hstart.fetch hpages hfetch
    refine ⟨hsound, hsize, fun i hpins => (hkept i hpins).1, fun i hpins _ => (hkept i hpins).2, ?_⟩
    rintro other ⟨⟩
    exact hnull
  | modify pageId change =>
    obtain ⟨hsound, hsize, hkept⟩ := hstart.modify pageId change
    refine ⟨hsound, hsize, fun i _ => hkept i, fun i _ hno => absurd rfl (hno pageId change), ?_⟩
    rintro other ⟨⟩
  | unpin pageId isDirty hint =>
    obtain ⟨hsound, hsize, hkept⟩ := hstart.unpin pageId isDirty hint
    refine ⟨hsound, hsize, fun i _ => (hkept i).1, fun i _ _ => (hkept i).2, ?_⟩
    rintro other ⟨⟩
  | flushPage pageId =>
    have hkeeps := KeepsFrames.flushPage (PoolStep.storage ⟨.flushPage pageId, pageReads, pageWrites,
      walSyncs⟩ st) pageId
    refine ⟨hstart.keepsFrames hkeeps, hkeeps.poolSize, fun i _ => hkeeps.pageId i,
      fun i _ _ => hkeeps.pageData i, ?_⟩
    rintro other ⟨⟩
  | flushAll =>
    have hkeeps := KeepsFrames.flushAll (PoolStep.storage ⟨.flushAll, pageReads, pageWrites, walSyncs⟩ st)
    refine ⟨hstart.keepsFrames hkeeps, hkeeps.poolSize, fun i _ => hkeeps.pageId i,
      fun i _ _ => hkeeps.pageData i, ?_⟩
    rintro other ⟨⟩

/-- A run from a sound pool. -/
theorem BufferPoolManager.Sound.runsSoundly {st : Storage} (h : st.bpm.Sound)
    (hsmall : st.bpm.poolSize < 2 ^ 31) {steps : List PoolStep}
    (hpages : ∀ step ∈ steps, step.op.FetchesPages) : st.RunsSoundly steps := by
  induction steps generalizing st with
  | nil => exact h
  | cons step steps ih =>
    obtain ⟨hsound, hsize, hkeeps⟩ := h.step hsmall (hpages step List.mem_cons_self)
    exact ⟨h, hkeeps, ih hsound (hsize ▸ hsmall) fun other hother => hpages other (List.mem_cons_of_mem _ hother)⟩

/-- A new pool is sound. -/
theorem sound_bufferPoolInit (diskFd : ℤ) (wal : Option WALManager) (host : Host) {poolSize : ℕ}
    (hpos : 1 ≤ poolSize) : (bufferPoolInit diskFd wal host poolSize).bpm.Sound := by
  refine ⟨fun i j hi => ?_, ?_, fun i _ => ?_⟩
  · rw [bufferPoolInit, BufferPoolManager.frame_replicate] at hi
    exact absurd rfl hi
  · change 0 < (List.replicate poolSize Frame.empty).length
    rwa [List.length_replicate]
  · rw [bufferPoolInit, BufferPoolManager.frame_replicate]
    rfl

/-- Every run of a new pool keeps the representation, whatever pages are fetched, unpinned and flushed and
whatever the disk does. -/
theorem poolRun_soundly (diskFd : ℤ) (wal : Option WALManager) (host : Host) {poolSize : ℕ}
    (hpos : 1 ≤ poolSize) (hsmall : poolSize ≤ 2 ^ 31 - 1) (steps : List PoolStep)
    (hpages : ∀ step ∈ steps, step.op.FetchesPages) :
    (bufferPoolInit diskFd wal host poolSize).RunsSoundly steps := by
  have hsize : (bufferPoolInit diskFd wal host poolSize).bpm.poolSize < 2 ^ 31 := by
    rw [bufferPoolInit, BufferPoolManager.poolSize, List.length_replicate]
    omega
  exact (sound_bufferPoolInit diskFd wal host hpos).runsSoundly hsize hpages

/-- A run of a pool of one frame in which the write of the victim fails. -/
theorem poolRun_soundly_eviction :
    (bufferPoolInit 3 none Host.empty 1).RunsSoundly evictionWithDiskFull := by
  refine poolRun_soundly 3 none Host.empty (by decide) (by decide) _ fun step hstep => ?_
  simp only [evictionWithDiskFull, List.mem_cons, List.not_mem_nil, or_false] at hstep
  obtain rfl | rfl | rfl := hstep
  · exact (by decide : 0 ≠ invalidPageId)
  · trivial
  · exact (by decide : 1 ≠ invalidPageId)

end FtsUring
