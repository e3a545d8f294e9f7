import FtsUring.Shard.Adding

/-!
# Inserting into a shard and deleting from it

`shardInsertDocument` and `shardDeleteDocument` do to the pages of a shard what
`ShardView.insertDocument` and `ShardView.deleteDocument` do to its content, as long as the page
counter names valid pages.
-/

namespace FtsUring

open Foundation

variable {F : Type} [Double F]

/-- The members of a shard agree with its content. -/
structure Shard.Matches (shard : Shard F) (view : ShardView) : Prop where
  activePage : shard.activeDataPageId = view.activePage
  nextDocId : shard.nextDocId = view.nextDocId

/-- The members of a shard after an insertion that leaves the given content. -/
def Shard.afterInsert (shard : Shard F) (doc : Document) (view : ShardView) : Shard F :=
  { shard with
    nextDocId := shard.nextDocId + 1
    activeDataPageId := view.activePage }.countDocument doc.dl

/-- The members keep agreeing with the content. -/
theorem Shard.Matches.afterInsert {shard : Shard F} {view : ShardView} (h : shard.Matches view)
    (doc : Document) :
    (shard.afterInsert doc (view.insertDocument doc)).Matches (view.insertDocument doc) where
  activePage := rfl
  nextDocId := by
    rw [ShardView.nextDocId_insertDocument, ← h.nextDocId]
    rfl

namespace ShardAt

variable {s t : PageArray} {view view' : ShardView}

/-- Writing to the log. -/
theorem setLog (h : ShardAt s view) (wal : WALManager) (walFile : List UInt8) :
    ShardAt (s.setLog (some wal) walFile) view := by
  have hlog : (some wal).isSome = s.wal.isSome := h.wal.symm
  have hsettles : s.Settles (s.setLog (some wal) walFile) ∅ :=
    ⟨(PageArray.Evolves.refl s _).setLog hlog walFile, rfl, rfl⟩
  obtain ⟨htree, hpostings, htombstones, hdata⟩ := h.unchanged hsettles.evolves
  exact h.settle hsettles h.valid h.counter (htree fun _ _ => Set.notMem_empty _)
    (fun termId => hpostings termId fun _ _ => Set.notMem_empty _)
    (htombstones (Set.notMem_empty _)) (hdata fun _ _ => Set.notMem_empty _)

/-- Adding the postings of a document. -/
theorem ensures_addPostings (h : ShardAt s view) (docId : UInt32) {pageId slotId : ℕ}
    (hpage : pageId < 2 ^ 32) (hslot : slotId < 2 ^ 16) (position : ℕ) (termIds : List UInt32)
    (hfits : (view.addPostings docId pageId slotId position termIds).nextPageId ≤ invalidPageId) :
    arrayHandler.Ensures (FtsUring.addPostings docId pageId slotId position termIds) s
      fun _ t => ShardAt t (view.addPostings docId pageId slotId position termIds) := by
  induction termIds generalizing s view position with
  | nil => exact .pure h
  | cons termId termIds ih =>
    have hstep := (ShardView.nextPageId_le_addPostings
      (view.addPosting termId ⟨docId, pageId, slotId, [UInt32.ofNat position]⟩) docId pageId slotId
      (position + 1) termIds).trans hfits
    rw [FtsUring.addPostings]
    exact (h.ensures_addPosting termId docId hpage hslot _ hstep).bind
      fun _ mid hmid => ih hmid _ hfits

/-- Adding the postings of terms that have postings logs nothing. -/
theorem sameLog_addPostings (h : ShardAt s view) {docId : UInt32} {pageId slotId : ℕ}
    (hpage : pageId < 2 ^ 32) (hslot : slotId < 2 ^ 16) {position : ℕ} {termIds : List UInt32}
    (hfits : (view.addPostings docId pageId slotId position termIds).nextPageId ≤ invalidPageId)
    (hknown : ∀ termId ∈ termIds, view.postings termId ≠ [])
    (hexec : arrayHandler.exec (FtsUring.addPostings docId pageId slotId position termIds) s =
      some ((), t)) : s.SameLog t := by
  induction termIds generalizing s view position with
  | nil =>
    simp only [FtsUring.addPostings, Handler.exec_pure, Option.some.injEq, Prod.mk.injEq] at hexec
    exact hexec.2 ▸ ⟨rfl, rfl⟩
  | cons termId termIds ih =>
    have hstep := (ShardView.nextPageId_le_addPostings
      (view.addPosting termId ⟨docId, pageId, slotId, [UInt32.ofNat position]⟩) docId pageId slotId
      (position + 1) termIds).trans hfits
    obtain ⟨ok, mid, hadd, hmid⟩ :=
      h.ensures_addPosting termId docId hpage hslot (UInt32.ofNat position) hstep
    rw [FtsUring.addPostings, Handler.exec_bind_of_eq _ hadd] at hexec
    have hlater : ∀ other ∈ termIds, (view.addPosting termId
        ⟨docId, pageId, slotId, [UInt32.ofNat position]⟩).postings other ≠ [] := fun other hother =>
      view.postings_addPosting_ne_nil _ _ (hknown other (List.mem_cons_of_mem _ hother))
    exact (h.sameLog_addPosting (hknown termId List.mem_cons_self) hadd).trans (ih hmid hfits hlater hexec)

/-- The data pages after the newest one was changed or a new one was put in front. -/
theorem dataAt_cons {changed : Set ℕ} {id : ℕ} {records : List UnifiedDocRecord} {rest : DataPages}
    {page : Page} (hrest : DataAt s rest) (hevolves : s.Evolves t changed)
    (hout : ∀ other ∈ PageChain.ids rest, other ∉ changed) (hextent : id < t.extent)
    (hholds : t.Holds id page) (hpage : IsDataPage page records) : DataAt t ((id, records) :: rest) := by
  intro other hother
  rw [List.mem_cons] at hother
  obtain rfl | hother := hother
  · exact ⟨hextent, page, hholds, hpage⟩
  · exact hrest.evolves hevolves hout other hother

/-- The structures of a shard after its data pages were changed. -/
theorem setData (h : ShardAt s view) {changed : Set ℕ} (hsettles : s.Settles t changed)
    (hchanged : ∀ id ∈ changed, view.Owns .data id ∨ view.nextPageId ≤ id)
    {rec : UnifiedDocRecord} (hvalid : (view.storeRecord rec).Valid)
    (hcounter : t.nextPageId = (view.storeRecord rec).nextPageId)
    (hdata : DataAt t (view.storeRecord rec).data) : ShardAt t (view.storeRecord rec) := by
  obtain ⟨htree, hpostings, htombstones, -⟩ := h.unchanged hsettles.evolves
  have hother : ∀ owner, owner ≠ .data → ∀ id, view.Owns owner id → id ∉ changed :=
    fun owner hne => h.not_mem_of_owner hne hchanged
  exact h.settle hsettles hvalid hcounter (htree (hother .tree nofun))
    (fun termId => hpostings termId (hother (.term termId) nofun))
    (htombstones (hother .tombstones nofun _ rfl)) hdata

/-- The end of an insertion, from the state in which the page with the new record is pinned. -/
theorem ensures_indexDocument {pinned : PageArray} {shard : Shard F} {doc : Document} {docId : UInt32}
    {page : Page} {records : List UnifiedDocRecord} (hactive : shard.activeDataPageId = view.activePage)
    (hpin : shard.activeDataPageId ∈ pinned.pins) (hholds : pinned.Holds shard.activeDataPageId page)
    (hpage : IsDataPage page records) (hslot : view.newestSlot = records.length - 1)
    (hpositive : 0 < records.length)
    (hunpin : arrayHandler.exec (unpinPage shard.activeDataPageId true .normal) pinned = some ((), s))
    (h : ShardAt s view) (hvalidPage : shard.activeDataPageId < invalidPageId)
    (hfits : ((view.addPostings docId view.activePage view.newestSlot 0 doc.termIds).addPosting 0
      ⟨docId, view.activePage, view.newestSlot, [0]⟩).nextPageId ≤ invalidPageId) :
    arrayHandler.Ensures (shardIndexDocument shard doc docId) pinned fun result t =>
      result = (true, shard.countDocument doc.dl) ∧
        ShardAt t ((view.addPostings docId view.activePage view.newestSlot 0 doc.termIds).addPosting 0
          ⟨docId, view.activePage, view.newestSlot, [0]⟩) ∧
        (view.Knows doc → pinned.SameLog t) := by
  have hcapacity : dataPageCapacity = 2 := rfl
  have hlength := hpage.fits
  have hcount := hpage.slotCount
  have hslotId : (page.slotCount + 2 ^ 16 - 1) % 2 ^ 16 = view.newestSlot := by
    rw [hslot, hcount]
    omega
  have hpageSmall : view.activePage < 2 ^ 32 := hactive ▸ hvalidPage.trans (by decide)
  have hslotSmall : view.newestSlot < 2 ^ 16 := by omega
  rw [shardIndexDocument]
  refine .step (PageArray.exec_pageData hpin hholds) (.step hunpin ?_)
  rw [hslotId, hactive]
  have hindexed := (ShardView.nextPageId_le_addPosting _ _ _).trans hfits
  obtain ⟨⟨⟩, mid, hterms, hmid⟩ :=
    h.ensures_addPostings docId hpageSmall hslotSmall 0 doc.termIds hindexed
  obtain ⟨ok, t, hzero, ht⟩ := hmid.ensures_addPosting 0 docId hpageSmall hslotSmall 0 hfits
  refine .step hterms (.step hzero (.pure ⟨rfl, ht, fun hknows => ?_⟩))
  have hreleased := sameLog_exec (p := unpinPage shard.activeDataPageId true .normal)
    ⟨trivial, fun _ => trivial⟩ hunpin
  have hindex := h.sameLog_addPostings hpageSmall hslotSmall hindexed
    (fun termId hterm => hknows termId (Or.inr hterm)) hterms
  refine (hreleased.trans hindex).trans (hmid.sameLog_addPosting ?_ hzero)
  exact ShardView.postings_addPostings_ne_nil _ _ _ _ _ _ (hknows 0 (Or.inl rfl))

/-- The pages that storing the record takes are among those of the insertion. -/
theorem nextPageId_storeRecord_le (view : ShardView) (doc : Document) :
    (view.storeRecord (doc.record view.nextDocId)).nextPageId ≤ (view.insertDocument doc).nextPageId := by
  rw [ShardView.insertDocument]
  exact (ShardView.nextPageId_le_addPostings _ _ _ _ _ _).trans
    (ShardView.nextPageId_le_addPosting _ _ _)

/-- The record fits into the active page. -/
theorem ensures_insertFits (h : ShardAt s view) {shard : Shard F} {doc : Document} {active : ℕ}
    {records : List UnifiedDocRecord} {rest : DataPages} (hdata : view.data = (active, records) :: rest)
    (hactive : shard.activeDataPageId = active) {page : Page} (hholds : s.Holds active page)
    (hpage : IsDataPage page records) (hroom : records.length < dataPageCapacity)
    (hfits : (view.insertDocument doc).nextPageId ≤ invalidPageId) :
    arrayHandler.Ensures (do
      modifyPage active fun page =>
        (slottedPageInsertTuple page (doc.record view.nextDocId).encode).2
      shardIndexDocument shard doc view.nextDocId) (s.pin active) fun result t =>
        result = (true, shard.countDocument doc.dl) ∧ ShardAt t (view.insertDocument doc) ∧
          (view.Knows doc → s.SameLog t) := by
  subst hactive
  have hid : view.Owns .data shard.activeDataPageId := by
    rw [ShardView.Owns, hdata]
    exact List.mem_cons_self
  have hneeds : view.data.needsPage dataPageCapacity = false := by
    rw [hdata, PageChain.needsPage, decide_eq_false_iff_not]
    exact not_le.mpr hroom
  set rec := doc.record view.nextDocId with hrec
  obtain ⟨-, hstoredPage⟩ := hpage.insertTuple hroom rec
  set page' := (slottedPageInsertTuple page rec.encode).2
  have hstoredData : (view.storeRecord rec).data =
      (shard.activeDataPageId, records ++ [rec]) :: rest := by
    rw [ShardView.storeRecord, hdata, PageChain.push, if_pos hroom]
  have hvalid := h.valid.storeRecord rec ((nextPageId_storeRecord_le view doc).trans hfits)
  obtain ⟨hunpin, hsettles, hchanged⟩ :=
    PageArray.settles_unpin_change h.idle (h.lt_extent hid) page'
  have hdescending := h.valid.dataDescending
  rw [hdata, PageChain.ids_cons, List.pairwise_cons] at hdescending
  have hrest : DataAt s rest := fun other hother =>
    h.data other (hdata ▸ List.mem_cons_of_mem _ hother)
  have hmid := h.setData hsettles
    (fun id hmem => Or.inl (Set.mem_singleton_iff.mp hmem ▸ hid)) hvalid
    (by rw [ShardView.storeRecord, hneeds]; exact h.counter) (by
      rw [hstoredData]
      refine dataAt_cons hrest hsettles.evolves (fun other hother hmem => ?_)
        ((h.lt_extent hid).trans_le hsettles.evolves.extent) hchanged hstoredPage
      exact (hdescending.1 other hother).ne (Set.mem_singleton_iff.mp hmem))
  refine .step (PageArray.exec_modifyPage_of_holds (s.mem_pins_pin _) hholds _) ?_
  have hslot : (view.storeRecord rec).newestSlot = (records ++ [rec]).length - 1 := by
    rw [ShardView.newestSlot, hstoredData]
    rfl
  have hpositive : 0 < (records ++ [rec]).length := by simp
  refine ensures_indexDocument ?_ List.mem_cons_self (PageArray.content_change_self _ _ _) hstoredPage
    hslot hpositive hunpin hmid (h.lt_invalid hid) hfits
  rw [ShardView.activePage, hstoredData]
  rfl

/-- The active page is full: the record goes into a new page. -/
theorem ensures_insertRollsOver (h : ShardAt s view) {shard : Shard F} {doc : Document} {active : ℕ}
    {records : List UnifiedDocRecord} {rest : DataPages} (hdata : view.data = (active, records) :: rest)
    (hfull : records.length = dataPageCapacity)
    (hfits : (view.insertDocument doc).nextPageId ≤ invalidPageId) :
    arrayHandler.Ensures (do
      let newPageId ← takePageId
      let shard := { shard with activeDataPageId := newPageId }
      if !(← writeZeroPage newPageId) then return (false, shard)
      if !(← fetchPage newPageId) then return (false, shard)
      modifyPage newPageId fun _ => slottedPageInit newPageId .vectorData
      modifyPage newPageId fun page =>
        (slottedPageInsertTuple page (doc.record view.nextDocId).encode).2
      shardIndexDocument shard doc view.nextDocId) s fun result t =>
        result = (true, { shard with activeDataPageId := view.nextPageId }.countDocument doc.dl) ∧
          ShardAt t (view.insertDocument doc) ∧ (view.Knows doc → s.SameLog t) := by
  have hcounter := h.counter
  have hneeds : view.data.needsPage dataPageCapacity = true := by
    rw [hdata, PageChain.needsPage, decide_eq_true_eq]
    exact hfull.ge
  set rec := doc.record view.nextDocId with hrec
  have hnext : (view.storeRecord rec).nextPageId = view.nextPageId + 1 := by
    rw [ShardView.storeRecord, hneeds]
    rfl
  have hstoredData : (view.storeRecord rec).data = (view.nextPageId, [rec]) :: view.data := by
    rw [ShardView.storeRecord, hdata, PageChain.push, if_neg (not_lt.mpr hfull.ge)]
  have hstoredFits : (view.storeRecord rec).nextPageId ≤ invalidPageId :=
    (nextPageId_storeRecord_le view doc).trans hfits
  have hvalid := h.valid.storeRecord rec hstoredFits
  have hnextValid : s.nextPageId < invalidPageId := by omega
  obtain ⟨-, hpage⟩ := (IsDataPage.init s.nextPageId).insertTuple (by decide) rec
  set formatted := slottedPageInit s.nextPageId .vectorData with hformatted
  set page := (slottedPageInsertTuple formatted rec.encode).2 with hpageEq
  obtain ⟨hunpin, hsettles, hholds⟩ := PageArray.settles_unpin_formatNew h.idle page
  obtain ⟨-, -, -, hdataMid⟩ := h.structures_of_new hsettles.evolves
  have hextent : s.nextPageId < ((s.formatNew page).unpin s.nextPageId true).extent := by
    change s.nextPageId < (s.formatNew page).extent
    rw [PageArray.extent_formatNew]
    exact lt_of_lt_of_le (Nat.lt_succ_self _) (le_max_right _ _)
  have hmid := h.setData hsettles
    (fun id hmem => Or.inr (by rw [Set.mem_singleton_iff.mp hmem, hcounter])) hvalid
    (by rw [hnext, ← hcounter]; rfl) (by
      rw [hstoredData, ← hcounter]
      intro other hother
      rw [List.mem_cons] at hother
      obtain rfl | hother := hother
      · exact ⟨hextent, page, hholds, hpage⟩
      · exact hdataMid other hother)
  refine .step (PageArray.exec_takePageId hnextValid) ?_
  refine .step (PageArray.exec_writeZeroPage _ _) ?_
  simp only [Bool.not_true, Bool.false_eq_true, if_false]
  have hallocated : s.allocate.Idle := h.idle.of_pins rfl rfl h.idle.touched
  refine .step (PageArray.exec_fetchPage (hallocated.fetchable hnextValid)) ?_
  simp only [Bool.not_true, Bool.false_eq_true, if_false]
  refine .step (PageArray.exec_formatNew fun _ _ => hformatted.symm) ?_
  have hstored : (s.formatNew formatted).change s.nextPageId page = s.formatNew page :=
    PageArray.change_change _ _ _ _
  have hmodify := PageArray.exec_modifyPage_of_holds List.mem_cons_self
    (s.holds_formatNew formatted) fun page => (slottedPageInsertTuple page rec.encode).2
  rw [← hpageEq, hstored] at hmodify
  refine .step hmodify ?_
  have hslot : (view.storeRecord rec).newestSlot = [rec].length - 1 := by
    rw [ShardView.newestSlot, hstoredData]
    rfl
  rw [← hcounter]
  refine ensures_indexDocument ?_ List.mem_cons_self (s.holds_formatNew page) hpage hslot Nat.one_pos
    hunpin hmid hnextValid hfits
  rw [ShardView.activePage, hstoredData, hcounter]
  rfl

/-- Inserting a document, and its record in the log. When all terms have postings, nothing else is
logged. -/
theorem ensures_insertDocument_logged (h : ShardAt s view) {shard : Shard F}
    (hmatches : shard.Matches view) (doc : Document)
    (hfits : (view.insertDocument doc).nextPageId ≤ invalidPageId) :
    arrayHandler.Ensures (shardInsertDocument shard doc) s fun result t =>
      result = (true, shard.afterInsert doc (view.insertDocument doc)) ∧
        ShardAt t (view.insertDocument doc) ∧ (view.Knows doc → ∃ lsn logged,
          arrayHandler.exec (walAppend 0 .recInsert (UInt32.ofNat shard.activeDataPageId) 0
            (doc.record shard.nextDocId).encode) s = some (lsn, logged) ∧ logged.SameLog t) := by
  obtain ⟨⟨active, records⟩, rest, hdata⟩ := List.exists_cons_of_ne_nil h.valid.dataNonempty
  have hactive : shard.activeDataPageId = active := by
    rw [hmatches.activePage, ShardView.activePage, hdata]
    rfl
  have hmem : (active, records) ∈ view.data := hdata ▸ List.mem_cons_self
  have hid : view.Owns .data active := List.mem_map_of_mem hmem
  obtain ⟨-, page, hholds, hpage⟩ : _ ∧ ∃ page, s.Holds active page ∧ IsDataPage page records :=
    h.data _ hmem
  obtain ⟨lsn, wal, walFile, happend⟩ := PageArray.exists_exec_walAppend h.wal 0 .recInsert
    (UInt32.ofNat shard.activeDataPageId) 0 (doc.record shard.nextDocId).encode
  have hlogged := h.setLog wal walFile
  rw [shardInsertDocument]
  refine .step happend ?_
  rw [hactive]
  refine .step (PageArray.exec_fetchPage (hlogged.idle.fetchable (h.lt_invalid hid))) ?_
  simp only [Bool.not_true, Bool.false_eq_true, if_false]
  refine .step (PageArray.exec_pageData (PageArray.mem_pins_pin _ _) hholds) ?_
  rw [hmatches.nextDocId]
  have hrecord := happend
  rw [hactive, hmatches.nextDocId] at hrecord
  by_cases hroom : records.length < dataPageCapacity
  · obtain ⟨hok, -⟩ := hpage.insertTuple hroom (doc.record view.nextDocId)
    rw [if_pos hok]
    have hlogHolds : (s.setLog (some wal) walFile).Holds active page := hholds
    generalize hnew : { shard with activeDataPageId := active, nextDocId := view.nextDocId + 1 } = next
    have hnext : next.activeDataPageId = active := hnew ▸ rfl
    refine (hlogged.ensures_insertFits hdata hnext hlogHolds hpage hroom hfits).mono ?_
    rintro result t ⟨rfl, ht, hsame⟩
    refine ⟨?_, ht, fun hknows => ⟨lsn, _, hrecord, hsame hknows⟩⟩
    have hsame : (view.insertDocument doc).activePage = active := by
      rw [ShardView.activePage, ShardView.data_insertDocument, hdata, PageChain.push, if_pos hroom]
      rfl
    rw [Shard.afterInsert, hsame, hmatches.nextDocId, hnew]
  · have hfull : records.length = dataPageCapacity := le_antisymm hpage.fits (not_lt.mp hroom)
    rw [hpage.insertTuple_full hfull, if_neg Bool.false_ne_true]
    refine .step (PageArray.exec_unpinPage_clean hlogged.idle active .normal) ?_
    have hrolls := @ensures_insertRollsOver F _ _ _ hlogged
      { shard with nextDocId := view.nextDocId + 1 } doc active records rest hdata hfull hfits
    refine hrolls.mono ?_
    rintro result t ⟨rfl, ht, hsame⟩
    refine ⟨?_, ht, fun hknows => ⟨lsn, _, hrecord, hsame hknows⟩⟩
    have hnew : (view.insertDocument doc).activePage = view.nextPageId := by
      rw [ShardView.activePage, ShardView.data_insertDocument, hdata, PageChain.push, if_neg hroom]
      rfl
    rw [Shard.afterInsert, hnew, hmatches.nextDocId]

/-- Inserting a document. -/
theorem ensures_insertDocument (h : ShardAt s view) {shard : Shard F} (hmatches : shard.Matches view)
    (doc : Document) (hfits : (view.insertDocument doc).nextPageId ≤ invalidPageId) :
    arrayHandler.Ensures (shardInsertDocument shard doc) s fun result t =>
      result = (true, shard.afterInsert doc (view.insertDocument doc)) ∧
        ShardAt t (view.insertDocument doc) :=
  (h.ensures_insertDocument_logged hmatches doc hfits).mono fun _ _ hpost => ⟨hpost.1, hpost.2.1⟩

/-- Deleting a document. -/
theorem ensures_deleteDocument (h : ShardAt s view) (docId : UInt32) :
    arrayHandler.Ensures (shardDeleteDocument docId) s fun deleted t =>
      deleted = true ∧ ShardAt t (view.deleteDocument docId) := by
  have hvalid : tombstonePageId < invalidPageId := by decide
  set page := ftsTombstoneMarkDeleted view.tombstones docId with hpage
  set changed := (s.pin tombstonePageId).change tombstonePageId page with hchanged
  have hwal : changed.wal.isSome := h.wal
  obtain ⟨lsn, wal, walFile, happend⟩ := PageArray.exists_exec_walAppend hwal 0 .ftsTombstone
    (UInt32.ofNat tombstonePageId) 0 (leBytes 4 docId.toNat)
  have hlogged := h.setLog wal walFile
  obtain ⟨hunpin, hsettles, hholds⟩ :=
    PageArray.settles_unpin_change hlogged.idle h.tombstone_lt_extent page
  rw [shardDeleteDocument]
  refine .step (PageArray.exec_fetchPage (h.idle.fetchable hvalid)) ?_
  simp only [Bool.not_true, Bool.false_eq_true, if_false]
  refine .step (PageArray.exec_modifyPage_of_holds (s.mem_pins_pin _) h.tombstones _) ?_
  refine .step happend (.step hunpin (.pure ⟨rfl, ?_⟩))
  obtain ⟨htree, hpostings, -, hdata⟩ := hlogged.unchanged hsettles.evolves
  have hmem : ∀ id ∈ ({tombstonePageId} : Set ℕ), view.Owns .tombstones id ∨
      view.nextPageId ≤ id := fun id hid => Or.inl (Set.mem_singleton_iff.mp hid)
  have hother : ∀ owner, owner ≠ .tombstones → ∀ id, view.Owns owner id →
      id ∉ ({tombstonePageId} : Set ℕ) := fun owner hne => hlogged.not_mem_of_owner hne hmem
  exact hlogged.settle hsettles (h.valid.deleteDocument docId) hlogged.counter
    (htree (hother .tree nofun)) (fun termId => hpostings termId (hother (.term termId) nofun))
    hholds (hdata (hother .data nofun))

/-- Asking whether a document is deleted. -/
theorem exec_isDeleted (h : ShardAt s view) (docId : UInt32) :
    arrayHandler.exec (shardIsDeleted docId) s = some (view.isDeleted docId, s) := by
  have hvalid : tombstonePageId < invalidPageId := by decide
  rw [shardIsDeleted, Handler.exec_bind_of_eq _ (PageArray.exec_fetchPage (h.idle.fetchable hvalid))]
  simp only [Bool.not_true, Bool.false_eq_true, if_false]
  rw [Handler.exec_bind_of_eq _ (PageArray.exec_pageData (s.mem_pins_pin _) h.tombstones),
    Handler.exec_bind_of_eq _ (PageArray.exec_unpinPage_clean h.idle _ .normal)]
  rfl

end ShardAt

end FtsUring
