import FtsUring.Storage.PoolInvariant

/-!
# Sequential scans

A scan fetches one page after the other and unpins each with the hint that it is a sequential scan. The hint
leaves the clock hand at the frame, so that the next page that is missing goes into the same frame. Of the
pages that are not scanned at most one is evicted.
-/

namespace FtsUring

/-- Fetch a page and unpin it with the hint, dirty or not; NULL is not unpinned. -/
def sequentialScanStep (st : Storage) (page : ℕ × Bool) : Storage :=
  match bufferPoolFetchPage st page.1 with
  | (none, st) => st
  | (some _, st) => bufferPoolUnpinPage st page.1 page.2 .sequentialScan

/-- The pages that are in the pool. -/
def BufferPoolManager.residentPages (bpm : BufferPoolManager) : List ℕ :=
  (bpm.frames.map Frame.pageId).filter fun pageId => pageId ≠ invalidPageId

/-- The pages that a step evicted, one for each frame that lost its page. -/
def evictedPages (before after : BufferPoolManager) : List ℕ :=
  before.residentPages.filter fun pageId => pageId ∉ after.residentPages

/-- The pages that are evicted while pages are scanned. -/
def scanEvictions (st : Storage) : List (ℕ × Bool) → List ℕ
  | [] => []
  | page :: pages =>
    evictedPages st.bpm (sequentialScanStep st page).bpm ++ scanEvictions (sequentialScanStep st page) pages

/-- Every page of a scan is fetched. -/
def FetchesAll (st : Storage) : List (ℕ × Bool) → Prop
  | [] => True
  | page :: pages => (bufferPoolFetchPage st page.1).1.isSome ∧ FetchesAll (sequentialScanStep st page) pages

/-! ## Evictions -/

namespace BufferPoolManager

variable {before after : BufferPoolManager}

/-- The pages that are in the pool are those of its frames. -/
theorem mem_residentPages {bpm : BufferPoolManager} {pageId : ℕ} :
    pageId ∈ bpm.residentPages ↔
      pageId ≠ invalidPageId ∧ ∃ i < bpm.poolSize, (bpm.frame i).pageId = pageId := by
  rw [residentPages, List.mem_filter, List.mem_map, decide_eq_true_iff, and_comm]
  refine and_congr_right fun _ => ⟨?_, ?_⟩
  · rintro ⟨frame, hframe, rfl⟩
    obtain ⟨i, hi, rfl⟩ := List.mem_iff_getElem.mp hframe
    exact ⟨i, hi, by rw [BufferPoolManager.frame, List.getD_eq_getElem _ _ hi]⟩
  · rintro ⟨i, hi, rfl⟩
    refine ⟨bpm.frames[i], List.getElem_mem hi, ?_⟩
    rw [BufferPoolManager.frame, List.getD_eq_getElem _ _ hi]

/-- Nothing is evicted when the frames keep their pages. -/
theorem evictedPages_eq_nil (hsize : after.poolSize = before.poolSize)
    (hpages : ∀ i, (after.frame i).pageId = (before.frame i).pageId) : evictedPages before after = [] := by
  rw [evictedPages, List.filter_eq_nil_iff]
  intro pageId hresident
  obtain ⟨hvalid, i, hi, hpage⟩ := mem_residentPages.mp hresident
  have hstays : pageId ∈ after.residentPages :=
    mem_residentPages.mpr ⟨hvalid, i, hsize ▸ hi, (hpages i).trans hpage⟩
  simpa using hstays

/-- The pages in the pool are different. -/
theorem DistinctPages.nodup_residentPages {bpm : BufferPoolManager} (h : bpm.DistinctPages) :
    bpm.residentPages.Nodup := by
  rw [residentPages, List.nodup_iff_pairwise_ne, List.pairwise_filter, List.pairwise_map,
    List.pairwise_iff_getElem]
  intro i j hi hj hlt hvalid _ heq
  have hframe : ∀ k (hk : k < bpm.frames.length), bpm.frame k = bpm.frames[k] := fun k hk =>
    List.getD_eq_getElem _ _ hk
  rw [← hframe i hi] at hvalid
  rw [← hframe i hi, ← hframe j hj] at heq
  have hsame := h i j (by simpa using hvalid) heq
  omega

/-- When only one frame changes its page, that page alone can be evicted. -/
theorem mem_evictedPages {i : ℕ} (hsize : after.poolSize = before.poolSize)
    (hothers : ∀ j, j ≠ i → (after.frame j).pageId = (before.frame j).pageId) {pageId : ℕ}
    (hevicted : pageId ∈ evictedPages before after) :
    pageId = (before.frame i).pageId ∧ pageId ≠ invalidPageId := by
  rw [evictedPages, List.mem_filter, decide_eq_true_iff] at hevicted
  obtain ⟨hvalid, j, hj, hpage⟩ := mem_residentPages.mp hevicted.1
  by_cases hij : j = i
  · exact ⟨hij ▸ hpage.symm, hvalid⟩
  · refine absurd (mem_residentPages.mpr ⟨hvalid, j, hsize ▸ hj, ?_⟩) hevicted.2
    rw [hothers j hij, hpage]

/-- When only one frame changes its page, at most one page is evicted. -/
theorem DistinctPages.length_evictedPages (h : before.DistinctPages) {i : ℕ}
    (hsize : after.poolSize = before.poolSize)
    (hothers : ∀ j, j ≠ i → (after.frame j).pageId = (before.frame j).pageId) :
    (evictedPages before after).length ≤ 1 := by
  have hsubset : evictedPages before after ⊆ [(before.frame i).pageId] := by
    intro pageId hevicted
    rw [List.mem_singleton]
    exact (mem_evictedPages hsize hothers hevicted).1
  exact (List.subperm_of_subset (h.nodup_residentPages.filter _) hsubset).length_le

end BufferPoolManager

/-! ## One page of a scan -/

/-- A page was scanned in a frame: the other frames keep their pages and pins, and the hand stands at the
frame if it is not pinned any more. -/
structure ScannedIn (before after : BufferPoolManager) (pageId i pinCount : ℕ) : Prop where
  poolSize : after.poolSize = before.poolSize
  index : i < before.poolSize
  page : (after.frame i).pageId = pageId
  pins : (after.frame i).pinCount = pinCount
  otherPages : ∀ j, j ≠ i → (after.frame j).pageId = (before.frame j).pageId
  otherPins : ∀ j, j ≠ i → (after.frame j).pinCount = (before.frame j).pinCount
  hand : after.clockHand = if pinCount = 0 then i else before.clockHand

/-- Unpinning the frame of a page with the hint. -/
theorem scannedIn_bufferPoolUnpinPage {st : Storage} {pageId i : ℕ} (hfound : st.bpm.frameIndex pageId = some i)
    (isDirty : Bool) :
    ScannedIn st.bpm (bufferPoolUnpinPage st pageId isDirty .sequentialScan).bpm pageId i
      ((st.bpm.frame i).pinCount - 1) := by
  obtain ⟨hi, hpage⟩ := BufferPoolManager.frameIndex_some hfound
  set frame : Frame := { st.bpm.frame i with
    pinCount := (st.bpm.frame i).pinCount - 1, isDirty := (st.bpm.frame i).isDirty || isDirty } with hframe
  have hunpin : (bufferPoolUnpinPage st pageId isDirty .sequentialScan).bpm =
      { st.bpm.setFrame i frame with
        clockHand := if (st.bpm.frame i).pinCount - 1 = 0 then i else st.bpm.clockHand } := by
    rw [bufferPoolUnpinPage, hfound]
    dsimp only
    by_cases hzero : (st.bpm.frame i).pinCount - 1 = 0
    · rw [if_pos ⟨hzero, rfl⟩, if_pos hzero]
    · rw [if_neg fun hboth => hzero hboth.1, if_neg hzero]
      rfl
  rw [hunpin]
  have hself := st.bpm.frame_setFrame_self hi frame
  have hothers : ∀ j, j ≠ i → (st.bpm.setFrame i frame).frame j = st.bpm.frame j := fun j hj =>
    st.bpm.frame_setFrame_of_ne (Ne.symm hj) frame
  refine ⟨st.bpm.poolSize_setFrame i frame, hi, ?_, ?_, fun j hj => ?_, fun j hj => ?_, rfl⟩
  · exact (congrArg Frame.pageId hself).trans hpage
  · exact congrArg Frame.pinCount hself
  · exact congrArg Frame.pageId (hothers j hj)
  · exact congrArg Frame.pinCount (hothers j hj)

/-- The hand stands at a free frame with a page that is scanned, or with none. -/
def BufferPoolManager.HandOn (bpm : BufferPoolManager) (ids : List ℕ) : Prop :=
  (bpm.frame bpm.clockHand).Free ∧
    ((bpm.frame bpm.clockHand).pageId = invalidPageId ∨ (bpm.frame bpm.clockHand).pageId ∈ ids)

/-- A pool in which a scan finds frames: no two frames hold the same page, the hand stands on a frame, and some
frame is free. -/
structure BufferPoolManager.Scannable (bpm : BufferPoolManager) : Prop where
  distinct : bpm.DistinctPages
  hand : bpm.clockHand < bpm.poolSize
  small : bpm.poolSize < 2 ^ 31
  free : ∃ i < bpm.poolSize, (bpm.frame i).Free

/-- Scanning after other changes of the frame. -/
theorem ScannedIn.of_mid {before mid after : BufferPoolManager} {pageId i pinCount : ℕ}
    (h : ScannedIn mid after pageId i pinCount) (hsize : mid.poolSize = before.poolSize)
    (hpages : ∀ j, j ≠ i → (mid.frame j).pageId = (before.frame j).pageId)
    (hpins : ∀ j, j ≠ i → (mid.frame j).pinCount = (before.frame j).pinCount)
    (hhand : pinCount ≠ 0 → mid.clockHand = before.clockHand) :
    ScannedIn before after pageId i pinCount := by
  refine ⟨h.poolSize.trans hsize, hsize ▸ h.index, h.page, h.pins,
    fun j hj => (h.otherPages j hj).trans (hpages j hj), fun j hj => (h.otherPins j hj).trans (hpins j hj), ?_⟩
  rw [h.hand]
  split_ifs with hzero
  · rfl
  · exact hhand hzero

/-- Scanning a page in the frame that holds it keeps the pages apart. -/
theorem ScannedIn.distinctPages {before after : BufferPoolManager} {pageId i pinCount : ℕ}
    (h : ScannedIn before after pageId i pinCount) (hpage : (before.frame i).pageId = pageId)
    (hdistinct : before.DistinctPages) : after.DistinctPages := by
  refine hdistinct.of_pageId fun j => ?_
  by_cases hij : j = i
  · rw [hij, h.page, hpage]
  · exact h.otherPages j hij

/-- One step of a scan: the page was in the frame, or was loaded into a free one, that under the hand if that
was free. -/
theorem scannedIn_sequentialScanStep {st : Storage} (h : st.bpm.Scannable) (page : ℕ × Bool) :
    (bufferPoolFetchPage st page.1).1.isSome ∧ (sequentialScanStep st page).bpm.DistinctPages ∧
      ∃ i pinCount, ScannedIn st.bpm (sequentialScanStep st page).bpm page.1 i pinCount ∧
        (((st.bpm.frame i).pageId = page.1 ∧ ((st.bpm.frame i).pinCount = 0 → pinCount = 0)) ∨
          pinCount = 0 ∧ ((st.bpm.frame st.bpm.clockHand).Free → i = st.bpm.clockHand)) := by
  have hfetch := fetches_bufferPoolFetchPage h.hand h.small page.1
  rw [sequentialScanStep]
  cases hresult : bufferPoolFetchPage st page.1 with
  | mk answer after =>
    rw [hresult] at hfetch
    cases hfetch with
    | @hit i hfound =>
      obtain ⟨hi, hpage⟩ := BufferPoolManager.frameIndex_some hfound
      set frame : Frame := { st.bpm.frame i with pinCount := ((st.bpm.frame i).pinCount + 1) % 2 ^ 32 }
      have hsize := st.bpm.poolSize_setFrame i frame
      have hself := st.bpm.frame_setFrame_self hi frame
      have hothers : ∀ j, j ≠ i → (st.bpm.setFrame i frame).frame j = st.bpm.frame j := fun j hj =>
        st.bpm.frame_setFrame_of_ne (Ne.symm hj) frame
      have hdistinct := h.distinct.setFrame_same i frame rfl
      have hfound' : (st.bpm.setFrame i frame).frameIndex page.1 = some i := by
        rw [BufferPoolManager.frameIndex_eq_of_pageId hsize (fun j => ?_), hfound]
        by_cases hij : j = i
        · rw [hij, hself]
        · rw [hothers j hij]
      have hscanned := @scannedIn_bufferPoolUnpinPage { st with bpm := st.bpm.setFrame i frame } _ _ hfound' page.2
      refine ⟨rfl, hscanned.distinctPages ?_ hdistinct, i, _, hscanned.of_mid hsize
        (fun j hj => congrArg Frame.pageId (hothers j hj)) (fun j hj => congrArg Frame.pinCount (hothers j hj))
        fun _ => rfl, .inl ⟨hpage, fun hzero => ?_⟩⟩
      · exact (congrArg Frame.pageId hself).trans hpage
      · dsimp only
        rw [hself]
        change ((st.bpm.frame i).pinCount + 1) % 2 ^ 32 - 1 = 0
        rw [hzero]
        rfl
    | pinned habsent hall hhand =>
      obtain ⟨i, hi, hfree⟩ := h.free
      exact absurd hfree (hall i hi)
    | @load i hand loaded host habsent hi hfree hfirst hhand hread =>
      have hkeeps := keepsFrames_writeVictim st hand i
      set mid := (st.writeVictim hand i).bpm
      set frame : Frame := ⟨page.1, 1, false, loaded⟩
      have hi' : i < mid.poolSize := hkeeps.poolSize ▸ hi
      have habsent' : mid.frameIndex page.1 = none := hkeeps.frameIndex_none habsent
      have hsize := mid.poolSize_setFrame i frame
      have hself := mid.frame_setFrame_self hi' frame
      have hothers : ∀ j, j ≠ i → (mid.setFrame i frame).frame j = mid.frame j := fun j hj =>
        mid.frame_setFrame_of_ne (Ne.symm hj) frame
      have hdistinct := (h.distinct.of_pageId hkeeps.pageId).setFrame_new i frame habsent'
      have hfound : (mid.setFrame i frame).frameIndex page.1 = some i := by
        refine BufferPoolManager.frameIndex_eq_some (hsize ▸ hi') (by rw [hself]) fun j hj hij => ?_
        rw [hothers j hij]
        exact BufferPoolManager.frameIndex_none habsent' (hsize ▸ hj)
      have hscanned := @scannedIn_bufferPoolUnpinPage
        { st.writeVictim hand i with bpm := mid.setFrame i frame, host := host } _ _ hfound page.2
      have hzero : ((mid.setFrame i frame).frame i).pinCount - 1 = 0 := by
        rw [hself]
        rfl
      refine ⟨rfl, hscanned.distinctPages (by rw [hself]) hdistinct, i, _, hscanned.of_mid
        (hsize.trans hkeeps.poolSize) (fun j hj => ?_) (fun j hj => ?_) fun hno => absurd hzero hno,
        .inr ⟨hzero, hfirst⟩⟩
      · exact (congrArg Frame.pageId (hothers j hj)).trans (hkeeps.pageId j)
      · exact (congrArg Frame.pinCount (hothers j hj)).trans (hkeeps.pinCount j)

/-- A step of a scan leaves the pool scannable. It evicts at most one page, and then the hand stands on a
scanned page; if it already did, only scanned pages are evicted. -/
theorem BufferPoolManager.Scannable.step {st : Storage} (h : st.bpm.Scannable) {page : ℕ × Bool}
    {ids : List ℕ} (hpage : page.1 ∈ ids) :
    (sequentialScanStep st page).bpm.Scannable ∧
      (evictedPages st.bpm (sequentialScanStep st page).bpm).length ≤ 1 ∧
      (evictedPages st.bpm (sequentialScanStep st page).bpm = [] ∨ (sequentialScanStep st page).bpm.HandOn ids) ∧
      (st.bpm.HandOn ids → (sequentialScanStep st page).bpm.HandOn ids ∧
        ∀ pageId ∈ evictedPages st.bpm (sequentialScanStep st page).bpm, pageId ∈ ids) := by
  obtain ⟨-, hdistinct, i, pinCount, hscanned, hkind⟩ := scannedIn_sequentialScanStep h page
  set after := (sequentialScanStep st page).bpm
  -- a frame that is not pinned any more is free and under the hand
  have hreleased : pinCount = 0 → after.HandOn ids := by
    intro hzero
    have hhand := hscanned.hand
    rw [if_pos hzero] at hhand
    rw [HandOn, hhand, hscanned.page]
    exact ⟨.inr (hscanned.pins.trans hzero), .inr hpage⟩
  have hscannable : after.Scannable := by
    refine ⟨hdistinct, ?_, hscanned.poolSize ▸ h.small, ?_⟩
    · rw [hscanned.hand, hscanned.poolSize]
      split_ifs
      · exact hscanned.index
      · exact h.hand
    · by_cases hzero : pinCount = 0
      · exact ⟨i, hscanned.poolSize ▸ hscanned.index, .inr (hscanned.pins.trans hzero)⟩
      · obtain ⟨j, hj, hfree⟩ := h.free
        refine ⟨j, hscanned.poolSize ▸ hj, ?_⟩
        obtain ⟨hsame, hpins⟩ | ⟨hno, -⟩ := hkind
        · by_cases hij : j = i
          · subst hij
            obtain hempty | hunpinned := hfree
            · exact .inl (hscanned.page.trans (hsame.symm.trans hempty))
            · exact absurd (hpins hunpinned) hzero
          · rw [Frame.Free, hscanned.otherPages j hij, hscanned.otherPins j hij]
            exact hfree
        · exact absurd hno hzero
  have hkept : (st.bpm.frame i).pageId = page.1 → evictedPages st.bpm after = [] := by
    refine fun hsame => evictedPages_eq_nil hscanned.poolSize fun j => ?_
    by_cases hij : j = i
    · rw [hij, hscanned.page, hsame]
    · exact hscanned.otherPages j hij
  refine ⟨hscannable, h.distinct.length_evictedPages hscanned.poolSize hscanned.otherPages, ?_, fun hon => ?_⟩
  · obtain ⟨hsame, -⟩ | ⟨hzero, -⟩ := hkind
    · exact .inl (hkept hsame)
    · exact .inr (hreleased hzero)
  · obtain ⟨hsame, hpins⟩ | ⟨hzero, hfirst⟩ := hkind
    · refine ⟨?_, by simp [hkept hsame]⟩
      by_cases hzero : pinCount = 0
      · exact hreleased hzero
      · -- the frame is still pinned, and the hand stays where it was
        have hhand := hscanned.hand
        rw [if_neg hzero] at hhand
        rw [HandOn, hhand]
        by_cases hij : st.bpm.clockHand = i
        · have hempty : (st.bpm.frame i).pageId = invalidPageId := by
            obtain hempty | hunpinned := hon.1
            · exact hij ▸ hempty
            · exact absurd (hpins (hij ▸ hunpinned)) hzero
          have hstill : (after.frame i).pageId = invalidPageId := hscanned.page.trans (hsame.symm.trans hempty)
          rw [hij]
          exact ⟨.inl hstill, .inl hstill⟩
        · rw [Frame.Free, hscanned.otherPages _ hij, hscanned.otherPins _ hij]
          exact hon
    · refine ⟨hreleased hzero, fun pageId hevicted => ?_⟩
      obtain ⟨rfl, hvalid⟩ := mem_evictedPages hscanned.poolSize hscanned.otherPages hevicted
      rw [hfirst hon.1] at hvalid ⊢
      exact hon.2.resolve_left hvalid

/-! ## The whole scan -/

/-- Once the hand stands on a scanned page, only scanned pages are evicted. -/
theorem scanEvictions_of_handOn {st : Storage} (h : st.bpm.Scannable) {ids : List ℕ} (hon : st.bpm.HandOn ids)
    {pages : List (ℕ × Bool)} (hpages : ∀ page ∈ pages, page.1 ∈ ids) :
    ∀ pageId ∈ scanEvictions st pages, pageId ∈ ids := by
  induction pages generalizing st with
  | nil => exact fun pageId hevicted => absurd hevicted List.not_mem_nil
  | cons page pages ih =>
    obtain ⟨hscannable, -, -, hstays⟩ := h.step (hpages page List.mem_cons_self)
    obtain ⟨hon', hfirst⟩ := hstays hon
    intro pageId hevicted
    rw [scanEvictions, List.mem_append] at hevicted
    obtain hevicted | hevicted := hevicted
    · exact hfirst pageId hevicted
    · exact ih hscannable hon' (fun other hother => hpages other (List.mem_cons_of_mem _ hother)) pageId hevicted

/-- A scan of some of the pages evicts at most one other page. -/
theorem length_scanEvictions {st : Storage} (h : st.bpm.Scannable) {ids : List ℕ}
    {pages : List (ℕ × Bool)} (hpages : ∀ page ∈ pages, page.1 ∈ ids) :
    ((scanEvictions st pages).filter fun pageId => pageId ∉ ids).length ≤ 1 := by
  induction pages generalizing st with
  | nil => exact Nat.zero_le 1
  | cons page pages ih =>
    have hrest := fun other hother => hpages other (List.mem_cons_of_mem page hother)
    obtain ⟨hscannable, hone, hnone | hon, -⟩ := h.step (hpages page List.mem_cons_self)
    · rw [scanEvictions, hnone, List.nil_append]
      exact ih hscannable hrest
    · have hlater := scanEvictions_of_handOn hscannable hon hrest
      have hempty : (scanEvictions (sequentialScanStep st page) pages).filter (fun pageId => pageId ∉ ids) = [] := by
        rw [List.filter_eq_nil_iff]
        intro pageId hevicted
        simpa using hlater pageId hevicted
      rw [scanEvictions, List.filter_append, hempty, List.append_nil]
      exact (List.length_filter_le _ _).trans hone

/-- A scan fetches all its pages. -/
theorem BufferPoolManager.Scannable.fetchesAll {st : Storage} (h : st.bpm.Scannable) (pages : List (ℕ × Bool)) :
    FetchesAll st pages := by
  induction pages generalizing st with
  | nil => trivial
  | cons page pages ih =>
    obtain ⟨hfetched, -⟩ := scannedIn_sequentialScanStep h page
    exact ⟨hfetched, ih (h.step (List.mem_singleton_self page.1)).1⟩

/-- From any state of the pool with a frame that is not pinned, a scan fetches all its pages and evicts at most
one page that is not among them. -/
theorem sequentialScan_evicts_one (st : Storage) (hdistinct : st.bpm.DistinctPages)
    (hhand : st.bpm.clockHand < st.bpm.poolSize) (hsmall : st.bpm.poolSize < 2 ^ 31)
    (hfree : ∃ i < st.bpm.poolSize, (st.bpm.frame i).Free) (pages : List (ℕ × Bool)) :
    FetchesAll st pages ∧
      ((scanEvictions st pages).filter fun pageId => pageId ∉ pages.map Prod.fst).length ≤ 1 := by
  have h : st.bpm.Scannable := ⟨hdistinct, hhand, hsmall, hfree⟩
  exact ⟨h.fetchesAll pages, length_scanEvictions h fun page hpage => List.mem_map_of_mem hpage⟩

/-- A pool of three frames with the pages 7, 8 and 9. Page 8 is dirty, and page 9 is in use. -/
def usedPool : Storage where
  bpm := ⟨[⟨7, 0, false, Page.zero⟩, ⟨8, 0, true, Page.zero⟩, ⟨9, 1, false, Page.zero⟩], 0, 3⟩
  wal := none
  host := Host.empty

/-- A scan of the pages 4, 5 and 8 evicts page 7, and nothing else that is not scanned. -/
theorem sequentialScan_evicts_one_used : FetchesAll usedPool [(4, false), (5, true), (8, false)] ∧
    scanEvictions usedPool [(4, false), (5, true), (8, false)] = [7, 4] ∧
    ((scanEvictions usedPool [(4, false), (5, true), (8, false)]).filter fun pageId =>
      pageId ∉ [((4 : ℕ), false), (5, true), (8, false)].map Prod.fst).length ≤ 1 := by
  obtain ⟨hfetches, hone⟩ := sequentialScan_evicts_one usedPool (.of_nodup (by decide)) (by decide)
    (by decide) ⟨0, by decide, .inr rfl⟩ [(4, false), (5, true), (8, false)]
  exact ⟨hfetches, by decide +kernel, hone⟩

end FtsUring
