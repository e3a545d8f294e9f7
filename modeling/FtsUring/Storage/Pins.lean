import FtsUring.Storage.PoolFrames
import FtsUring.Storage.PageProgram

/-!
# Pools and their pins

A pool as it is set up and as every call leaves it, whatever the disk does: no page is in two frames, and the
clock hand stands on a frame. The pins of a page are those of its frame.
-/

namespace FtsUring

open Foundation

namespace BufferPoolManager

/-- No two frames hold the same page, and the clock hand stands on one of fewer than `2 ^ 31` frames. -/
structure Operable (bpm : BufferPoolManager) : Prop where
  distinct : bpm.DistinctPages
  hand : bpm.clockHand < bpm.poolSize
  small : bpm.poolSize < 2 ^ 31

/-- The pins of a page. -/
def pins (bpm : BufferPoolManager) (pageId : ℕ) : ℕ :=
  match bpm.frameIndex pageId with
  | none => 0
  | some i => (bpm.frame i).pinCount

variable {bpm after : BufferPoolManager} {pageId i : ℕ}

/-- The pins of a page that is in a frame. -/
theorem DistinctPages.pins_eq (h : bpm.DistinctPages) (hpage : (bpm.frame i).pageId = pageId)
    (hvalid : pageId ≠ invalidPageId) : bpm.pins pageId = (bpm.frame i).pinCount := by
  have hindex := h.frameIndex_frame (hpage.trans_ne hvalid)
  rw [hpage] at hindex
  rw [pins, hindex]

/-- A page that is in no frame has no pins. -/
theorem pins_eq_zero (h : bpm.frameIndex pageId = none) : bpm.pins pageId = 0 := by
  rw [pins, h]

/-- A page that is in a frame is found. -/
theorem isSome_frameIndex (hi : i < bpm.poolSize) (hpage : (bpm.frame i).pageId = pageId) :
    (bpm.frameIndex pageId).isSome := by
  rw [Option.isSome_iff_ne_none]
  exact fun hnone => frameIndex_none hnone hi hpage

/-- Frames with the same pages and pins. -/
theorem pins_congr (hsize : after.poolSize = bpm.poolSize)
    (hpage : ∀ i, (after.frame i).pageId = (bpm.frame i).pageId)
    (hpins : ∀ i, (after.frame i).pinCount = (bpm.frame i).pinCount) (pageId : ℕ) :
    after.pins pageId = bpm.pins pageId := by
  rw [pins, pins, frameIndex_eq_of_pageId hsize hpage]
  cases bpm.frameIndex pageId with
  | none => rfl
  | some i => exact hpins i

/-- Changing the pins of a frame. -/
theorem pins_setFrame (h : bpm.DistinctPages) (hi : i < bpm.poolSize) {frame : Frame}
    (hpage : frame.pageId = (bpm.frame i).pageId) (hvalid : pageId ≠ invalidPageId) :
    (bpm.setFrame i frame).pins pageId =
      if (bpm.frame i).pageId = pageId then frame.pinCount else bpm.pins pageId := by
  have hpages : ∀ j, ((bpm.setFrame i frame).frame j).pageId = (bpm.frame j).pageId := by
    intro j
    rw [bpm.frame_setFrame hi]
    split_ifs with hij
    · rw [hpage, hij]
    · rfl
  have hindex := frameIndex_eq_of_pageId (bpm.poolSize_setFrame i frame) hpages pageId
  split
  · next hsame =>
    have hfound := h.frameIndex_frame (hsame.trans_ne hvalid)
    rw [hsame] at hfound
    rw [pins, hindex, hfound]
    dsimp only
    rw [bpm.frame_setFrame_self hi]
  · next hother =>
    rw [pins, pins, hindex]
    cases hfound : bpm.frameIndex pageId with
    | none => rfl
    | some j =>
      have hij : i ≠ j := fun hsame => hother (hsame ▸ (frameIndex_some hfound).2)
      dsimp only
      rw [bpm.frame_setFrame_of_ne hij]

/-- Loading a page into a frame that is empty or not pinned. -/
theorem pins_load (h : bpm.DistinctPages) (hi : i < bpm.poolSize) (hfree : (bpm.frame i).Free) {frame : Frame}
    (habsent : bpm.frameIndex frame.pageId = none) (hvalid : pageId ≠ invalidPageId) :
    (bpm.setFrame i frame).pins pageId = if frame.pageId = pageId then frame.pinCount else bpm.pins pageId := by
  have hdistinct := h.setFrame_new i frame habsent
  split
  · next hsame =>
    have hframe : ((bpm.setFrame i frame).frame i) = frame := bpm.frame_setFrame_self hi frame
    rw [hdistinct.pins_eq (i := i) (by rw [hframe, hsame]) hvalid, hframe]
  · next hother =>
    cases hfound : bpm.frameIndex pageId with
    | none =>
      rw [pins_eq_zero hfound, pins_eq_zero]
      apply frameIndex_eq_none
      intro j hj
      rw [poolSize_setFrame] at hj
      rw [bpm.frame_setFrame hi]
      split
      · exact hother
      · exact frameIndex_none hfound hj
    | some j =>
      obtain ⟨hj, hpage⟩ := frameIndex_some hfound
      by_cases hij : i = j
      · -- the page is evicted, which was not pinned
        subst hij
        have hunpinned : (bpm.frame i).pinCount = 0 := hfree.resolve_left (hpage.trans_ne hvalid)
        rw [h.pins_eq hpage hvalid, hunpinned, pins_eq_zero]
        apply frameIndex_eq_none
        intro k hk
        rw [poolSize_setFrame] at hk
        rw [bpm.frame_setFrame hi]
        split
        · exact hother
        · next hik =>
          intro hpage'
          exact hik (h i k (hpage.trans_ne hvalid) (hpage.trans hpage'.symm))
      · rw [h.pins_eq hpage hvalid, hdistinct.pins_eq (i := j) (by rw [bpm.frame_setFrame_of_ne hij, hpage]) hvalid,
          bpm.frame_setFrame_of_ne hij]

namespace Operable

/-- Changes of dirty flags. -/
theorem keepsFrames (h : bpm.Operable) (hkeeps : KeepsFrames bpm after) : after.Operable := by
  refine ⟨?_, ?_, hkeeps.poolSize ▸ h.small⟩
  · intro i j hi hij
    rw [hkeeps.pageId] at hi
    rw [hkeeps.pageId, hkeeps.pageId] at hij
    exact h.distinct i j hi hij
  · rw [hkeeps.clockHand, hkeeps.poolSize]
    exact h.hand

/-- Moving the clock hand. -/
theorem moveHand (h : bpm.Operable) {hand : ℕ} (hhand : hand < bpm.poolSize) :
    ({ bpm with clockHand := hand } : BufferPoolManager).Operable :=
  ⟨h.distinct, hhand, h.small⟩

/-- Changing a frame that keeps its page. -/
theorem setFrame_same (h : bpm.Operable) {frame : Frame} (hpage : frame.pageId = (bpm.frame i).pageId) :
    (bpm.setFrame i frame).Operable :=
  ⟨h.distinct.setFrame_same i frame hpage, by simpa using h.hand, by simpa using h.small⟩

/-- Loading a page that no frame holds. -/
theorem setFrame_new (h : bpm.Operable) {frame : Frame} (habsent : bpm.frameIndex frame.pageId = none) :
    (bpm.setFrame i frame).Operable :=
  ⟨h.distinct.setFrame_new i frame habsent, by simpa using h.hand, by simpa using h.small⟩

end Operable

end BufferPoolManager

/-- A new pool is operable. -/
theorem operable_bufferPoolInit (diskFd : ℤ) (wal : Option WALManager) (host : Host) {poolSize : ℕ}
    (hpos : 0 < poolSize) (hsmall : poolSize < 2 ^ 31) :
    (bufferPoolInit diskFd wal host poolSize).bpm.Operable := by
  have hsize : (bufferPoolInit diskFd wal host poolSize).bpm.poolSize = poolSize := List.length_replicate
  exact ⟨(BufferPoolManager.wellFormed_replicate diskFd (hsmall.trans (by decide))).distinct, hsize.symm ▸ hpos,
    hsize.symm ▸ hsmall⟩

/-! ## The calls -/

variable {st after : Storage} {pageId other : ℕ} {answer : Option ℕ}

/-- A fetch pins its page, if it succeeds, and changes no other pins. -/
theorem BufferPoolManager.Operable.fetch (h : st.bpm.Operable) (hfetch : Fetches st pageId answer after) :
    after.bpm.Operable ∧ (answer.isSome → (after.bpm.frameIndex pageId).isSome) ∧
      ∀ other ≠ invalidPageId, after.bpm.pins other =
        if answer.isSome ∧ pageId = other then (st.bpm.pins other + 1) % 2 ^ 32 else st.bpm.pins other := by
  cases hfetch with
  | @hit i hfound =>
    obtain ⟨hi, hpage⟩ := frameIndex_some hfound
    have hsize :=
      st.bpm.poolSize_setFrame i { st.bpm.frame i with pinCount := ((st.bpm.frame i).pinCount + 1) % 2 ^ 32 }
    refine ⟨h.setFrame_same rfl, fun _ => ?_, fun other hvalid => ?_⟩
    · refine isSome_frameIndex (hsize ▸ hi) ?_
      rw [st.bpm.frame_setFrame_self hi, hpage]
    · have hpins := @pins_setFrame st.bpm other i h.distinct hi
        { st.bpm.frame i with pinCount := ((st.bpm.frame i).pinCount + 1) % 2 ^ 32 } rfl hvalid
      rw [hpage] at hpins
      simp only [Option.isSome_some, true_and]
      refine hpins.trans ?_
      split
      · next hsame => rw [h.distinct.pins_eq (hpage.trans hsame) hvalid]
      · rfl
  | pinned habsent hall hhand =>
    refine ⟨h.moveHand hhand, fun hsome => absurd hsome Bool.false_ne_true, fun other _ => ?_⟩
    simp only [Option.isSome_none, Bool.false_eq_true, false_and, if_false]
    rfl
  | @load i hand page host habsent hi hfree hfirst hhand hread =>
    have hkeeps := keepsFrames_writeVictim st hand i
    have hwritten := (h.moveHand hhand).keepsFrames hkeeps
    have habsent' : (st.writeVictim hand i).bpm.frameIndex pageId = none := hkeeps.frameIndex_none habsent
    have hi' : i < (st.writeVictim hand i).bpm.poolSize := hkeeps.poolSize ▸ hi
    have hfree' : ((st.writeVictim hand i).bpm.frame i).Free := by
      rw [Frame.Free, hkeeps.pageId, hkeeps.pinCount]
      exact hfree
    have hsize := (st.writeVictim hand i).bpm.poolSize_setFrame i ⟨pageId, 1, false, page⟩
    refine ⟨hwritten.setFrame_new habsent', fun _ => ?_, fun other hvalid => ?_⟩
    · refine isSome_frameIndex (hsize ▸ hi') ?_
      rw [BufferPoolManager.frame_setFrame_self _ hi']
    · have hpins := @pins_load _ other i hwritten.distinct hi' hfree' ⟨pageId, 1, false, page⟩ habsent' hvalid
      simp only [Option.isSome_some, true_and]
      refine hpins.trans ?_
      split
      · next hsame =>
        rw [← hsame, pins_eq_zero habsent, Nat.mod_eq_of_lt (Nat.one_lt_two_pow (by decide))]
      · exact pins_congr hkeeps.poolSize hkeeps.pageId hkeeps.pinCount other

/-- A fetch is answered. -/
theorem run_fetchPage (m : Machine) (pageId : ℕ) :
    poolHandler.run (.fetchPage pageId) m =
      some ((bufferPoolFetchPage m.storage pageId).1.isSome,
        { m with storage := (bufferPoolFetchPage m.storage pageId).2 }) := rfl

/-- Releasing a pin changes the pins of its page only. -/
theorem BufferPoolManager.Operable.unpin (h : st.bpm.Operable) (pageId : ℕ) (isDirty : Bool)
    (hint : BufferPoolHint) :
    (bufferPoolUnpinPage st pageId isDirty hint).bpm.Operable ∧
      ∀ other ≠ invalidPageId, (bufferPoolUnpinPage st pageId isDirty hint).bpm.pins other =
        if pageId = other then st.bpm.pins other - 1 else st.bpm.pins other := by
  rw [bufferPoolUnpinPage]
  cases hfound : st.bpm.frameIndex pageId with
  | none =>
    refine ⟨h, fun other _ => ?_⟩
    dsimp only
    split
    · next hsame => rw [← hsame, pins_eq_zero hfound]
    · rfl
  | some i =>
    obtain ⟨hi, hpage⟩ := frameIndex_some hfound
    set released : Frame := { st.bpm.frame i with
      pinCount := (st.bpm.frame i).pinCount - 1, isDirty := (st.bpm.frame i).isDirty || isDirty }
    have hreleased : released.pageId = (st.bpm.frame i).pageId := rfl
    have hsize := st.bpm.poolSize_setFrame i released
    have hsame : (st.bpm.setFrame i released).Operable := h.setFrame_same rfl
    have hpins : ∀ other ≠ invalidPageId, (st.bpm.setFrame i released).pins other =
        if pageId = other then st.bpm.pins other - 1 else st.bpm.pins other := by
      intro other hvalid
      rw [pins_setFrame h.distinct hi hreleased hvalid, hpage]
      split
      · next hsame => rw [h.distinct.pins_eq (hpage.trans hsame) hvalid]
      · rfl
    dsimp only
    split
    · exact ⟨hsame.moveHand (hsize ▸ hi), hpins⟩
    · exact ⟨hsame, hpins⟩

/-- Changing the bytes of a frame changes no pins. -/
theorem BufferPoolManager.Operable.modify {bpm : BufferPoolManager} (h : bpm.Operable) {i : ℕ}
    (hi : i < bpm.poolSize) (page : Page) :
    (bpm.setFrame i { bpm.frame i with pageData := page }).Operable ∧
      ∀ other, (bpm.setFrame i { bpm.frame i with pageData := page }).pins other = bpm.pins other := by
  refine ⟨h.setFrame_same rfl, pins_congr (bpm.poolSize_setFrame i _) (fun j => ?_) fun j => ?_⟩
  · rw [bpm.frame_setFrame hi]
    split
    · next hij => rw [hij]
    · rfl
  · rw [bpm.frame_setFrame hi]
    split
    · next hij => rw [hij]
    · rfl

end FtsUring
