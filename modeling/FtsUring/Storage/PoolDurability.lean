import FtsUring.Storage.WriteBack

/-!
# Durability of modified pages

A page that was unpinned dirty must stay in the pool until its complete image is in the data
file. What the three paths that write pages do is `WritesBack`; the runs of pool operations are
then a matter of that relation and the ghost map of the latest images.

The single and the batched flush keep a page dirty when its write reports an error, but every
path takes a short write for a complete one, and eviction drops the page whatever its write
reports.
-/

namespace FtsUring

open Foundation

/-! ## Runs of pool operations -/

/-- The operations of the callers. A caller changes a page through the pointer that a fetch
returned, so only while the page is pinned. -/
inductive PoolOp
  | fetch (pageId : ℕ)
  | modify (pageId : ℕ) (change : Page → Page)
  | unpin (pageId : ℕ) (isDirty : Bool) (hint : BufferPoolHint)
  | flushPage (pageId : ℕ)
  | flushAll

/-- An operation together with the outcomes of the system calls that it makes. -/
structure PoolStep where
  op : PoolOp
  pageReads : List IoOutcome
  pageWrites : List IoOutcome
  walSyncs : List IoOutcome

/-- The storage and, for each page, the latest image that was unpinned dirty. Changing a pinned
page takes its image back until the next dirty unpin. -/
structure PoolState where
  storage : Storage
  latest : ℕ → Option Page

/-- Change a page that is pinned. -/
def modifyPinnedPage (st : Storage) (pageId : ℕ) (change : Page → Page) : Storage :=
  match st.bpm.frameIndex pageId with
  | none => st
  | some i =>
    let frame := st.bpm.frame i
    if 0 < frame.pinCount then
      { st with bpm := st.bpm.setFrame i { frame with pageData := change frame.pageData } }
    else st

/-- Make the operation. -/
def PoolOp.apply (op : PoolOp) (st : Storage) : Storage :=
  match op with
  | .fetch pageId => (bufferPoolFetchPage st pageId).2
  | .modify pageId change => modifyPinnedPage st pageId change
  | .unpin pageId isDirty hint => bufferPoolUnpinPage st pageId isDirty hint
  | .flushPage pageId => (bufferPoolFlushPage st pageId).2
  | .flushAll => bufferPoolFlushAll st

/-- The images after the operation. -/
def PoolOp.images (op : PoolOp) (st : Storage) (latest : ℕ → Option Page) : ℕ → Option Page :=
  match op with
  | .modify pageId _ =>
    match st.bpm.frameIndex pageId with
    | none => latest
    | some i =>
      if 0 < (st.bpm.frame i).pinCount then Function.update latest pageId none else latest
  | .unpin pageId true _ =>
    match st.bpm.frameIndex pageId with
    | none => latest
    | some i => Function.update latest pageId (some (st.bpm.frame i).pageData)
  | _ => latest

/-- The storage when the system calls of a step have the given outcomes. -/
def PoolStep.storage (step : PoolStep) (st : Storage) : Storage :=
  { st with
    host := { st.host with
      pageReads := step.pageReads, pageWrites := step.pageWrites, walSyncs := step.walSyncs } }

/-- One step. -/
def PoolState.step (state : PoolState) (step : PoolStep) : PoolState where
  storage := step.op.apply (step.storage state.storage)
  latest := step.op.images state.storage state.latest

/-- The steps that lose no page: the write of a dirty victim completes, the writes of a flush are
not short, and only pages are unpinned dirty. -/
def PoolStep.Safe (step : PoolStep) (st : Storage) : Prop :=
  match step.op with
  | .fetch pageId =>
    st.bpm.frameIndex pageId = none → ∀ i, st.bpm.victim = some i → (st.bpm.frame i).isDirty →
      step.pageWrites.headD .full = .full
  | .modify _ _ => True
  | .unpin pageId isDirty _ => isDirty → pageId ≠ invalidPageId
  | .flushPage pageId =>
    ∀ i, st.bpm.frameIndex pageId = some i → (st.bpm.frame i).isDirty →
      ¬(step.pageWrites.headD .full).IsShort
  | .flushAll => ∀ outcome ∈ step.pageWrites, ¬outcome.IsShort

/-- A dirty frame becomes clean, or gets another page, only when its complete image is in the data
file. -/
structure KeepsDirtyPages (before after : Storage) : Prop where
  cleaned : ∀ i, (before.bpm.frame i).isDirty → ¬(after.bpm.frame i).isDirty →
    after.host.HoldsPage (before.bpm.frame i).pageId (before.bpm.frame i).pageData
  reassigned : ∀ i, (before.bpm.frame i).isDirty →
    (after.bpm.frame i).pageId ≠ (before.bpm.frame i).pageId →
    after.host.HoldsPage (before.bpm.frame i).pageId (before.bpm.frame i).pageData

/-- The latest image of each page is in the pool or in full in the data file. -/
def PoolState.KeepsImages (state : PoolState) : Prop :=
  ∀ pageId page, state.latest pageId = some page →
    (∃ i < state.storage.bpm.poolSize, (state.storage.bpm.frame i).pageId = pageId ∧
      (state.storage.bpm.frame i).pageData = page) ∨
    state.storage.host.HoldsPage pageId page

/-- Every step of the run is safe. -/
def PoolState.SafeRun : PoolState → List PoolStep → Prop
  | _, [] => True
  | state, step :: rest => step.Safe state.storage ∧ (state.step step).SafeRun rest

/-- No page is lost at any moment of the run. -/
def PoolState.KeepsPages : PoolState → List PoolStep → Prop
  | state, [] => state.KeepsImages
  | state, step :: rest =>
    state.KeepsImages ∧ KeepsDirtyPages state.storage (state.step step).storage ∧
      (state.step step).KeepsPages rest

/-- A new pool over a data file. -/
def PoolState.init (diskFd : ℤ) (wal : Option WALManager) (host : Host) (poolSize : ℕ) :
    PoolState where
  storage := bufferPoolInit diskFd wal host poolSize
  latest := fun _ => none

/-! ## Steps keep the images -/

/-- The invariant of the runs: the images are in dirty frames or in the data file, and a dirty
frame holds the latest image of its page. -/
structure ImagesIn (st : Storage) (latest : ℕ → Option Page) : Prop where
  wellFormed : st.bpm.WellFormed
  opened : 0 ≤ st.bpm.diskFd
  current : ∀ i, (st.bpm.frame i).isDirty → ∀ page, latest (st.bpm.frame i).pageId = some page →
    (st.bpm.frame i).pageData = page
  kept : ∀ pageId page, latest pageId = some page →
    (∃ i, (st.bpm.frame i).isDirty ∧ (st.bpm.frame i).pageId = pageId ∧
      (st.bpm.frame i).pageData = page) ∨ st.host.HoldsPage pageId page

/-- The invariant says that the latest image of each page is in the pool or in the data file. -/
theorem ImagesIn.keepsImages {state : PoolState} (h : ImagesIn state.storage state.latest) :
    state.KeepsImages := by
  intro pageId page hlatest
  obtain ⟨i, hdirty, hpage, hdata⟩ | hholds := h.kept pageId page hlatest
  · have hi := state.storage.bpm.lt_poolSize_of_frame (h.wellFormed.dirtyNamed i hdirty)
    exact Or.inl ⟨i, hi, hpage, hdata⟩
  · exact Or.inr hholds

/-- Writing back keeps the images. -/
theorem ImagesIn.writesBack {before after : Storage} {latest : ℕ → Option Page}
    (h : ImagesIn before latest) (hback : WritesBack before after) : ImagesIn after latest := by
  refine ⟨hback.wellFormed h.wellFormed, hback.diskFd ▸ h.opened, ?_, ?_⟩
  · intro i hdirty page hlatest
    rw [hback.pageId] at hlatest
    rw [hback.pageData]
    exact h.current i (hback.dirtied i hdirty) page hlatest
  · intro pageId page hlatest
    obtain ⟨i, hdirty, hpage, hdata⟩ | hholds := h.kept pageId page hlatest
    · by_cases hstill : (after.bpm.frame i).isDirty
      · exact Or.inl ⟨i, hstill, by rw [hback.pageId, hpage], by rw [hback.pageData, hdata]⟩
      · exact Or.inr (hpage ▸ hdata ▸ hback.cleaned i hdirty hstill)
    · obtain hholds' | ⟨i, hdirty, hpage, hholds'⟩ := hback.onDisk pageId page hholds
      · exact Or.inr hholds'
      · rw [h.current i hdirty page (hpage ▸ hlatest)] at hholds'
        exact Or.inr hholds'

/-- Writing back loses no dirty page. -/
theorem WritesBack.keepsDirtyPages {before after : Storage} (h : WritesBack before after) :
    KeepsDirtyPages before after :=
  ⟨h.cleaned, fun i _ hpage => absurd (h.pageId i) hpage⟩

/-- Giving a clean frame another page keeps the images. -/
theorem ImagesIn.reassign {st : Storage} {latest : ℕ → Option Page} (h : ImagesIn st latest) {i : ℕ}
    (hi : i < st.bpm.poolSize) (hclean : ¬(st.bpm.frame i).isDirty) {pageId : ℕ}
    (hnew : st.bpm.frameIndex pageId = none) (page : Page) {host : Host}
    (hfile : host.dataFile = st.host.dataFile) :
    ImagesIn { st with bpm := st.bpm.setFrame i ⟨pageId, 1, false, page⟩, host } latest := by
  refine ⟨h.wellFormed.setFrame_new hi _ hnew (by simp), h.opened, ?_, ?_⟩
  · intro j hdirty image hlatest
    simp only [st.bpm.frame_setFrame hi] at hdirty hlatest ⊢
    split_ifs at hdirty hlatest ⊢ with hij
    exact h.current j hdirty image hlatest
  · intro other image hlatest
    obtain ⟨j, hdirty, hpage, hdata⟩ | hholds := h.kept other image hlatest
    · have hij : i ≠ j := fun hij => hclean (hij ▸ hdirty)
      refine Or.inl ⟨j, ?_⟩
      simp only [st.bpm.frame_setFrame_of_ne hij]
      exact ⟨hdirty, hpage, hdata⟩
    · right
      rwa [Host.HoldsPage, hfile]

/-- Changing a frame without cleaning it keeps the images, if the image of its page is taken back,
or becomes the content of the dirty frame, or if neither image nor content changes. -/
theorem ImagesIn.setFrame {st : Storage} {latest latest' : ℕ → Option Page}
    (h : ImagesIn st latest) {i : ℕ} (hi : i < st.bpm.poolSize) {frame : Frame}
    (hpage : frame.pageId = (st.bpm.frame i).pageId)
    (hdirty : (st.bpm.frame i).isDirty → frame.isDirty)
    (hvalid : frame.isDirty → frame.pageId ≠ invalidPageId)
    (hothers : ∀ pageId, pageId ≠ frame.pageId → latest' pageId = latest pageId)
    (hself : latest' frame.pageId = none ∨
      (frame.isDirty ∧ latest' frame.pageId = some frame.pageData) ∨
      (latest' frame.pageId = latest frame.pageId ∧
        frame.pageData = (st.bpm.frame i).pageData ∧ (frame.isDirty → (st.bpm.frame i).isDirty))) :
    ImagesIn { st with bpm := st.bpm.setFrame i frame } latest' := by
  refine ⟨h.wellFormed.setFrame_same hi frame hpage hvalid, h.opened, ?_, ?_⟩
  · intro j hdirtyj image hlatest
    simp only [st.bpm.frame_setFrame hi] at hdirtyj hlatest ⊢
    split_ifs at hdirtyj hlatest ⊢ with hij
    · obtain hnone | ⟨-, hsome⟩ | ⟨hsame, hdata, hwas⟩ := hself
      · rw [hnone] at hlatest
        exact absurd hlatest (by simp)
      · rw [hsome] at hlatest
        exact Option.some.inj hlatest
      · rw [hsame, hpage] at hlatest
        rw [hdata]
        exact h.current i (hwas hdirtyj) image hlatest
    · have hne : (st.bpm.frame j).pageId ≠ frame.pageId := fun heq =>
        hij (h.wellFormed.distinct j i (h.wellFormed.dirtyNamed j hdirtyj) (heq.trans hpage)).symm
      rw [hothers _ hne] at hlatest
      exact h.current j hdirtyj image hlatest
  · intro pageId image hlatest
    have hcarry (hlatest : latest pageId = some image)
        (hsame : frame.pageId = pageId → frame.pageData = (st.bpm.frame i).pageData) :
        (∃ j, ((st.bpm.setFrame i frame).frame j).isDirty ∧
          ((st.bpm.setFrame i frame).frame j).pageId = pageId ∧
          ((st.bpm.setFrame i frame).frame j).pageData = image) ∨ st.host.HoldsPage pageId image := by
      obtain ⟨j, hdirtyj, hpagej, hdata⟩ | hholds := h.kept pageId image hlatest
      · refine Or.inl ⟨j, ?_⟩
        rw [st.bpm.frame_setFrame hi]
        split_ifs with hij
        · subst hij
          exact ⟨hdirty hdirtyj, hpage.trans hpagej, (hsame (hpage.trans hpagej)).trans hdata⟩
        · exact ⟨hdirtyj, hpagej, hdata⟩
      · exact Or.inr hholds
    by_cases heq : pageId = frame.pageId
    · subst heq
      obtain hnone | ⟨hnow, hsome⟩ | ⟨hsame, hdata, -⟩ := hself
      · rw [hnone] at hlatest
        exact absurd hlatest (by simp)
      · rw [hsome, Option.some.injEq] at hlatest
        refine Or.inl ⟨i, ?_⟩
        simp only [st.bpm.frame_setFrame hi, if_pos]
        exact ⟨hnow, trivial, hlatest⟩
      · exact hcarry (hsame ▸ hlatest) fun _ => hdata
    · exact hcarry (hothers pageId heq ▸ hlatest) fun hpage => absurd hpage.symm heq

/-- Changing a frame without cleaning it loses no dirty page. -/
theorem keepsDirtyPages_setFrame {st : Storage} {i : ℕ} (hi : i < st.bpm.poolSize) {frame : Frame}
    (hpage : frame.pageId = (st.bpm.frame i).pageId)
    (hdirty : (st.bpm.frame i).isDirty → frame.isDirty) :
    KeepsDirtyPages st { st with bpm := st.bpm.setFrame i frame } := by
  refine ⟨fun j hj hclean => ?_, fun j hj hmoved => ?_⟩
  · simp only [st.bpm.frame_setFrame hi] at hclean
    split_ifs at hclean with hij
    · exact absurd (hdirty (hij ▸ hj)) hclean
    · exact absurd hj hclean
  · simp only [st.bpm.frame_setFrame hi] at hmoved
    split_ifs at hmoved with hij
    · exact absurd (hij ▸ hpage) hmoved
    · exact absurd rfl hmoved

/-- Giving a clean frame another page after writing back loses no dirty page. -/
theorem WritesBack.keepsDirtyPages_reassign {before after : Storage} (h : WritesBack before after)
    {i : ℕ} (hi : i < after.bpm.poolSize) (hclean : ¬(after.bpm.frame i).isDirty) (frame : Frame)
    {host : Host} (hfile : host.dataFile = after.host.dataFile) :
    KeepsDirtyPages before { after with bpm := after.bpm.setFrame i frame, host } := by
  have hwritten (hdirty : (before.bpm.frame i).isDirty) :
      host.HoldsPage (before.bpm.frame i).pageId (before.bpm.frame i).pageData := by
    rw [Host.HoldsPage, hfile]
    exact h.cleaned i hdirty hclean
  refine ⟨fun j hj hcleaned => ?_, fun j hj hmoved => ?_⟩
  · simp only [after.bpm.frame_setFrame hi] at hcleaned
    split_ifs at hcleaned with hij
    · subst hij
      exact hwritten hj
    · rw [Host.HoldsPage, hfile]
      exact h.cleaned j hj hcleaned
  · simp only [after.bpm.frame_setFrame hi] at hmoved
    split_ifs at hmoved with hij
    · subst hij
      exact hwritten hj
    · exact absurd (h.pageId j) hmoved

/-- A page that is read, or formatted because it cannot be, leaves the data file alone. -/
theorem readPageOrFormat_dataFile (host : Host) (pageId : ℕ) :
    (readPageOrFormat host pageId).2.dataFile = host.dataFile := by
  unfold readPageOrFormat ftsVfsReadSync
  cases (host.pageReads.headD .full).transferred pageSize with
  | none => rfl
  | some moved =>
    simp only
    split_ifs <;> rfl

/-- A fetch, when the write of a dirty victim completes. -/
theorem ImagesIn.fetch {st : Storage} {latest : ℕ → Option Page} (h : ImagesIn st latest)
    (pageId : ℕ)
    (hsafe : st.bpm.frameIndex pageId = none → ∀ i, st.bpm.victim = some i →
      (st.bpm.frame i).isDirty → st.host.pageWrites.headD .full = .full) :
    ImagesIn (bufferPoolFetchPage st pageId).2 latest ∧
      KeepsDirtyPages st (bufferPoolFetchPage st pageId).2 := by
  unfold bufferPoolFetchPage
  cases hindex : st.bpm.frameIndex pageId with
  | some i =>
    obtain ⟨hi, -⟩ := BufferPoolManager.frameIndex_some hindex
    exact ⟨h.setFrame hi rfl id (h.wellFormed.dirtyNamed i) (fun _ _ => rfl)
      (Or.inr (Or.inr ⟨rfl, rfl, id⟩)), keepsDirtyPages_setFrame hi rfl id⟩
  | none =>
    obtain ⟨hback, hvictim⟩ := writesBack_findVictimFrame h.wellFormed h.opened (hsafe hindex)
    have hscanned : ImagesIn { st with bpm := st.bpm.scanned } latest :=
      ⟨h.wellFormed.scan.1, h.opened, h.current, h.kept⟩
    have himages := hscanned.writesBack hback
    have hfetched (hnonneg : 0 ≤ (findVictimFrame st).1) (page : Page) {host : Host}
        (hfile : host.dataFile = (findVictimFrame st).2.host.dataFile) :
        let loaded : Storage := { (findVictimFrame st).2 with
          bpm := (findVictimFrame st).2.bpm.setFrame (findVictimFrame st).1.toNat
            ⟨pageId, 1, false, page⟩
          host }
        ImagesIn loaded latest ∧ KeepsDirtyPages st loaded := by
      obtain ⟨hi, hclean⟩ := hvictim hnonneg
      have hnew : (findVictimFrame st).2.bpm.frameIndex pageId = none := by
        apply BufferPoolManager.frameIndex_eq_none
        intro j hj
        rw [hback.pageId]
        rw [hback.poolSize] at hj
        exact BufferPoolManager.frameIndex_none hindex hj
      rw [← show _ = st.bpm.poolSize from hback.poolSize] at hi
      have hkeeps := hback.keepsDirtyPages_reassign hi hclean ⟨pageId, 1, false, page⟩ hfile
      exact ⟨himages.reassign hi hclean hnew page hfile, hkeeps.cleaned, hkeeps.reassigned⟩
    simp only
    split_ifs with hneg hopen
    · exact ⟨himages, hback.keepsDirtyPages.cleaned, hback.keepsDirtyPages.reassigned⟩
    · exact hfetched (not_lt.mp hneg) _ (readPageOrFormat_dataFile _ _)
    · exact hfetched (not_lt.mp hneg) _ rfl

/-- Changing a pinned page. -/
theorem ImagesIn.modify {st : Storage} {latest : ℕ → Option Page} (h : ImagesIn st latest)
    (pageId : ℕ) (change : Page → Page) :
    ImagesIn (modifyPinnedPage st pageId change) (PoolOp.images (.modify pageId change) st latest) ∧
      KeepsDirtyPages st (modifyPinnedPage st pageId change) := by
  simp only [modifyPinnedPage, PoolOp.images]
  cases hindex : st.bpm.frameIndex pageId with
  | none => exact ⟨h, (WritesBack.refl st).keepsDirtyPages⟩
  | some i =>
    obtain ⟨hi, hpage⟩ := BufferPoolManager.frameIndex_some hindex
    simp only
    split_ifs with hpinned
    · refine ⟨h.setFrame hi rfl id (h.wellFormed.dirtyNamed i) ?_ (Or.inl ?_),
        keepsDirtyPages_setFrame hi rfl id⟩
      · intro other hother
        rw [hpage] at hother
        exact Function.update_of_ne hother _ _
      · rw [hpage]
        exact Function.update_self _ _ _
    · exact ⟨h, (WritesBack.refl st).keepsDirtyPages⟩

/-- The frame of a page after it was unpinned. -/
theorem ImagesIn.unpinFrame {st : Storage} {latest : ℕ → Option Page} (h : ImagesIn st latest)
    {pageId i : ℕ} (hindex : st.bpm.frameIndex pageId = some i) (isDirty : Bool)
    (hint : BufferPoolHint) (hsafe : isDirty → pageId ≠ invalidPageId) (pinCount : ℕ) :
    let frame := { st.bpm.frame i with pinCount, isDirty := (st.bpm.frame i).isDirty || isDirty }
    ImagesIn { st with bpm := st.bpm.setFrame i frame }
        (PoolOp.images (.unpin pageId isDirty hint) st latest) ∧
      KeepsDirtyPages st { st with bpm := st.bpm.setFrame i frame } := by
  intro frame
  obtain ⟨hi, hpage⟩ := BufferPoolManager.frameIndex_some hindex
  have hstays : (st.bpm.frame i).isDirty → frame.isDirty := fun hdirty => by simp [frame, hdirty]
  refine ⟨h.setFrame hi rfl hstays ?_ ?_ ?_, keepsDirtyPages_setFrame hi rfl hstays⟩
  · intro hdirty
    obtain hwas | hnow := Bool.or_eq_true_iff.mp hdirty
    · exact h.wellFormed.dirtyNamed i hwas
    · exact hpage ▸ hsafe hnow
  · intro other hother
    change other ≠ (st.bpm.frame i).pageId at hother
    cases isDirty with
    | false => rfl
    | true => simp only [PoolOp.images, hindex, Function.update_of_ne (hpage ▸ hother)]
  · change _ ∨ _ ∨ PoolOp.images _ st latest (st.bpm.frame i).pageId = _ ∧ _
    cases isDirty with
    | false => exact Or.inr (Or.inr ⟨rfl, rfl, by simp [frame]⟩)
    | true =>
      refine Or.inr (Or.inl ⟨by simp [frame], ?_⟩)
      simp only [PoolOp.images, hindex, frame, hpage, Function.update_self]

/-- Unpinning, when a page that is unpinned dirty is one that a page can have. -/
theorem ImagesIn.unpin {st : Storage} {latest : ℕ → Option Page} (h : ImagesIn st latest)
    (pageId : ℕ) (isDirty : Bool) (hint : BufferPoolHint)
    (hsafe : isDirty → pageId ≠ invalidPageId) :
    ImagesIn (bufferPoolUnpinPage st pageId isDirty hint)
        (PoolOp.images (.unpin pageId isDirty hint) st latest) ∧
      KeepsDirtyPages st (bufferPoolUnpinPage st pageId isDirty hint) := by
  unfold bufferPoolUnpinPage
  cases hindex : st.bpm.frameIndex pageId with
  | none =>
    refine ⟨?_, (WritesBack.refl st).keepsDirtyPages⟩
    cases isDirty with
    | false => exact h
    | true => simpa only [PoolOp.images, hindex] using h
  | some i =>
    obtain ⟨himages, hkeeps⟩ := h.unpinFrame hindex isDirty hint hsafe
      ((st.bpm.frame i).pinCount - 1)
    simp only
    split_ifs
    · obtain ⟨hi, -⟩ := BufferPoolManager.frameIndex_some hindex
      exact ⟨⟨himages.wellFormed.moveHand (Or.inl (by simpa using hi)), himages.opened,
        himages.current, himages.kept⟩, hkeeps.cleaned, hkeeps.reassigned⟩
    · exact ⟨himages, hkeeps⟩

/-- A safe step keeps the images and loses no dirty page. -/
theorem ImagesIn.step {state : PoolState} (h : ImagesIn state.storage state.latest)
    {step : PoolStep} (hsafe : step.Safe state.storage) :
    ImagesIn (state.step step).storage (state.step step).latest ∧
      KeepsDirtyPages state.storage (state.step step).storage := by
  have hstart : ImagesIn (step.storage state.storage) state.latest :=
    ⟨h.wellFormed, h.opened, h.current, h.kept⟩
  have hfrom {after : Storage} (hkeeps : KeepsDirtyPages (step.storage state.storage) after) :
      KeepsDirtyPages state.storage after := ⟨hkeeps.cleaned, hkeeps.reassigned⟩
  obtain ⟨op, pageReads, pageWrites, walSyncs⟩ := step
  cases op with
  | fetch pageId =>
    obtain ⟨himages, hkeeps⟩ := hstart.fetch pageId hsafe
    exact ⟨himages, hfrom hkeeps⟩
  | modify pageId change =>
    obtain ⟨himages, hkeeps⟩ := hstart.modify pageId change
    exact ⟨himages, hfrom hkeeps⟩
  | unpin pageId isDirty hint =>
    obtain ⟨himages, hkeeps⟩ := hstart.unpin pageId isDirty hint hsafe
    exact ⟨himages, hfrom hkeeps⟩
  | flushPage pageId =>
    obtain ⟨hback, -⟩ := writesBack_bufferPoolFlushPage hstart.wellFormed pageId hsafe
    exact ⟨hstart.writesBack hback, hfrom hback.keepsDirtyPages⟩
  | flushAll =>
    have hback := writesBack_bufferPoolFlushAll hstart.wellFormed hsafe
    exact ⟨hstart.writesBack hback, hfrom hback.keepsDirtyPages⟩

/-- Safe runs keep the pages, from any state that satisfies the invariant. -/
theorem ImagesIn.keepsPages {state : PoolState} (h : ImagesIn state.storage state.latest)
    {steps : List PoolStep} (hsafe : state.SafeRun steps) : state.KeepsPages steps := by
  induction steps generalizing state with
  | nil => exact h.keepsImages
  | cons step steps ih =>
    obtain ⟨himages, hkeeps⟩ := h.step hsafe.1
    exact ⟨h.keepsImages, hkeeps, ih himages hsafe.2⟩

/-- A new pool satisfies the invariant. -/
theorem imagesIn_init {diskFd : ℤ} (hopen : 0 ≤ diskFd) (wal : Option WALManager) (host : Host)
    {poolSize : ℕ} (hsize : poolSize < 2 ^ 32) :
    ImagesIn (PoolState.init diskFd wal host poolSize).storage (fun _ => none) := by
  refine ⟨BufferPoolManager.wellFormed_replicate diskFd hsize, hopen, ?_, ?_⟩
  · intro i hdirty page hlatest
    exact absurd hlatest (by simp)
  · intro pageId page hlatest
    exact absurd hlatest (by simp)

/-- In every run whose steps are safe, no modified page is lost at any moment. -/
theorem poolRun_keepsPages {diskFd : ℤ} (hopen : 0 ≤ diskFd) (wal : Option WALManager) (host : Host)
    {poolSize : ℕ} (hsize : poolSize < 2 ^ 32) (steps : List PoolStep)
    (hsafe : (PoolState.init diskFd wal host poolSize).SafeRun steps) :
    (PoolState.init diskFd wal host poolSize).KeepsPages steps :=
  (imagesIn_init hopen wal host hsize).keepsPages hsafe

/-- A step whose system calls complete. -/
def PoolStep.ofOp (op : PoolOp) : PoolStep := ⟨op, [], [], []⟩

/-- Page 0 is modified in a pool of one frame, and then page 1 is needed while the disk is full. -/
def evictionWithDiskFull : List PoolStep :=
  [.ofOp (.fetch 0), .ofOp (.unpin 0 true .normal), ⟨.fetch 1, [], [.error], []⟩]

/-- The victim's page is dropped although its write failed: afterwards page 0 is neither in the
pool nor in the data file. -/
theorem poolRun_loses_page :
    ¬(PoolState.init 3 none Host.empty 1).KeepsPages evictionWithDiskFull := by
  rintro ⟨-, -, -, -, -, -, hlast⟩
  obtain ⟨i, hi, hpage, -⟩ | hholds := hlast 0 (slottedPageInit 0 .row) rfl
  · have hzero : i = 0 := Nat.lt_one_iff.mp hi
    subst hzero
    exact absurd hpage (by decide)
  · have hlength := congrArg List.length hholds
    rw [Page.length_bytes] at hlength
    exact absurd hlength (by decide)

/-- A run of a pool of one frame in which the write of the victim completes. -/
theorem poolRun_keepsPages_eviction :
    (PoolState.init 3 none Host.empty 1).KeepsPages
      [.ofOp (.fetch 0), .ofOp (.unpin 0 true .normal), ⟨.fetch 1, [], [.full], []⟩, .ofOp .flushAll] :=
  poolRun_keepsPages (by decide) none Host.empty (by decide) _
    ⟨fun _ _ _ _ => rfl, fun _ => by decide, fun _ _ _ _ => rfl, by simp [PoolStep.Safe, PoolStep.ofOp],
      trivial⟩

end FtsUring
