import FtsUring.Search.Ranking
import FtsUring.Shard.Occurrences

/-!
# Searching all data pages

The text search without the index and the vector search go through all pages from the first data page
on, up to and including the page that is allocated next. They look at the records of the pages whose
type field says that they are data pages. A posting page has no type field: it looks like a data page
when its first posting is in a suitable page, and its positions are then taken for slots.
-/

namespace FtsUring

open Foundation

variable {F : Type} [Double F]

/-- Look at the records of one page. -/
def scanPage (ranking : Ranking F) (maxResults pageId : ℕ) (results : List (UnifiedSearchResult F)) :
    PageProgram (List (UnifiedSearchResult F)) := do
  if !(← fetchPage pageId) then return results
  let page ← pageData pageId
  if page.pageType ≠ PageType.vectorData.code then
    unpinPage pageId false .normal
    return results
  let results ← (List.range page.slotCount).foldlM (fun results slotIdx => do
    match ← readRecord page slotIdx with
    | none => return results
    | some rec => considerRecord ranking maxResults results rec) results
  unpinPage pageId false .sequentialScan
  return results

/-- Look at the pages from one on. -/
def scanPagesFrom (ranking : Ranking F) (maxResults : ℕ) :
    ℕ → ℕ → List (UnifiedSearchResult F) → PageProgram (List (UnifiedSearchResult F))
  | 0, _, _ => .diverge
  | fuel + 1, pageId, results => do
    let next ← nextPageId
    if pageId ≤ next then
      let results ← scanPage ranking maxResults pageId results
      scanPagesFrom ranking maxResults fuel ((pageId + 1) % 2 ^ 32) results
    else return results

/-- Look at all pages, and sort what was found. -/
def searchPages (ranking : Ranking F) (maxResults : ℕ) : PageProgram (List (UnifiedSearchResult F)) := do
  let results ← scanPagesFrom ranking maxResults walkLimit firstDataPageId []
  return exchangeSort ranking.key results

/-- Search the text of all documents. The term is not looked at. -/
def shardSearchBm25f (_termId : UInt32) (params : Bm25fParams F) (maxResults : ℕ) :
    PageProgram (List (UnifiedSearchResult F)) :=
  searchPages (textRanking params) maxResults

/-- Search the embeddings of all documents. -/
def shardSearchVector (queryVec : Vector UInt32 embeddingDim) (maxResults : ℕ) :
    PageProgram (List (UnifiedSearchResult F)) :=
  searchPages (vectorRanking queryVec) maxResults

/-! ## Posting pages that are taken for data pages -/

/-- A position that is not taken for the slot of a record: its upper half is not the size of one. -/
def InvertedPosting.NoRecordSlot (posting : InvertedPosting) : Prop :=
  ∀ position ∈ posting.positions, position.toNat / 2 ^ 16 ≠ unifiedDocRecordSize

/-- No position under a term is taken for the slot of a record. -/
def ShardView.NoRecordSlots (view : ShardView) : Prop :=
  ∀ termId, ∀ posting ∈ (view.postings termId).chronological, posting.NoRecordSlot

/-- The document is too short for such positions. -/
def Document.NoRecordSlots (doc : Document) : Prop :=
  doc.termIds.length ≤ unifiedDocRecordSize * 2 ^ 16

instance (doc : Document) : Decidable doc.NoRecordSlots := inferInstanceAs (Decidable (_ ≤ _))

/-- The positions of a term in a document that is short enough. -/
theorem termPositions_noRecordSlot {termId : UInt32} {position : ℕ} {termIds : List UInt32}
    (hshort : position + termIds.length ≤ unifiedDocRecordSize * 2 ^ 16) :
    ∀ found ∈ termPositions termId position termIds, found.toNat / 2 ^ 16 ≠ unifiedDocRecordSize := by
  induction termIds generalizing position with
  | nil => exact fun found hfound => absurd hfound List.not_mem_nil
  | cons other rest ih =>
    rw [List.length_cons] at hshort
    have hrest := @ih (position + 1) (by omega)
    intro found hfound
    rw [termPositions] at hfound
    split_ifs at hfound
    · obtain rfl | hfound := List.mem_cons.mp hfound
      · have hsize : unifiedDocRecordSize = 1588 := rfl
        rw [UInt32.toNat_ofNat', Nat.mod_eq_of_lt (by omega)]
        omega
      · exact hrest found hfound
    · exact hrest found hfound

/-- Adding the occurrences of a document that is short enough. -/
theorem addOccurrences_noRecordSlot {docId : UInt32} {location : ℕ × ℕ} {postings : List InvertedPosting}
    {positions : List UInt32} (hpostings : ∀ posting ∈ postings, posting.NoRecordSlot)
    (hpositions : ∀ position ∈ positions, position.toNat / 2 ^ 16 ≠ unifiedDocRecordSize) :
    ∀ posting ∈ addOccurrences docId location postings positions, posting.NoRecordSlot := by
  induction positions generalizing postings with
  | nil => exact hpostings
  | cons position rest ih =>
    have hnew := hpositions position List.mem_cons_self
    apply ih ?_ fun other hother => hpositions other (List.mem_cons_of_mem _ hother)
    have hposting : InvertedPosting.NoRecordSlot ⟨docId, location.1, location.2, [position]⟩ := by
      intro other hother
      rwa [List.mem_singleton.mp hother]
    have happend : ∀ posting ∈ postings ++ [⟨docId, location.1, location.2, [position]⟩],
        posting.NoRecordSlot := by
      intro posting hmem
      obtain hmem | hmem := List.mem_append.mp hmem
      · exact hpostings posting hmem
      · rwa [List.mem_singleton.mp hmem]
    change ∀ posting ∈ appendPosting postings ⟨docId, location.1, location.2, [position]⟩, _
    unfold appendPosting
    split
    next last hlast =>
      split_ifs
      · intro posting hmem
        obtain hmem | hmem := List.mem_append.mp hmem
        · exact hpostings posting (List.mem_of_mem_dropLast hmem)
        · rw [List.mem_singleton.mp hmem]
          intro other hother
          obtain hold | hother := List.mem_append.mp (List.mem_of_mem_take hother)
          · exact hpostings last (List.mem_of_getLast? hlast) other hold
          · rwa [List.mem_singleton.mp hother]
      · exact happend
    · exact happend

/-- The postings of a shard to which only documents were added that are short enough. -/
theorem ShardView.noRecordSlots_updates {view : ShardView} (hvalid : view.Valid)
    (hslots : view.NoRecordSlots) {updates : List ShardUpdate}
    (hshort : ∀ doc ∈ insertedDocuments updates, doc.NoRecordSlots)
    (hfits : (view.updates updates).nextPageId ≤ invalidPageId) :
    (view.updates updates).NoRecordSlots := by
  induction updates generalizing view with
  | nil => exact hslots
  | cons update updates ih =>
    have hnow := (nextPageId_le_updates (view.update update) updates).trans hfits
    cases update with
    | delete docId => exact ih (hvalid.update _ hnow) hslots hshort hfits
    | insert doc =>
      have hdoc : doc.NoRecordSlots := hshort doc List.mem_cons_self
      refine ih (hvalid.update _ hnow) ?_ (fun other hother => hshort other ?_) hfits
      · intro termId
        rw [ShardView.update, hvalid.chronological_insertDocument doc hnow]
        apply addOccurrences_noRecordSlot (hslots termId)
        intro position hposition
        obtain hposition | hposition := List.mem_append.mp hposition
        · exact termPositions_noRecordSlot (by rwa [Nat.zero_add]) position hposition
        · split_ifs at hposition
          · rw [List.mem_singleton.mp hposition]
            decide
          · exact absurd hposition List.not_mem_nil
      · exact List.mem_cons_of_mem _ hother

/-- The postings of a new shard. -/
theorem ShardView.noRecordSlots_fresh : ShardView.fresh.NoRecordSlots :=
  fun _ _ hposting => absurd hposting List.not_mem_nil

/-- The slots of a posting page are the positions of its first posting. -/
theorem IsPostingPage.getTuple_length {page : Page} {termId : UInt32} {items : List InvertedPosting}
    {next : ℕ} (h : IsPostingPage page termId items next) (hslots : ∀ posting ∈ items, posting.NoRecordSlot)
    {slotIdx : ℕ} {ref : TupleRef} (hget : slottedPageGetTuple page slotIdx = some ref) :
    ref.length ≠ unifiedDocRecordSize := by
  have hnonempty := h.nonempty
  have hfirst := h.posting hnonempty
  have hcount : page.slotCount = page.posCount 0 := rfl
  rw [slottedPageGetTuple, hcount] at hget
  split_ifs at hget with hslot
  rw [not_le] at hslot
  have hlimit : page.posCount 0 ≤ 8 := h.posCount_le hnonempty
  have hposition : page.position 0 slotIdx ∈ items[0].positions := by
    rw [← hfirst]
    exact List.mem_map_of_mem (List.mem_range.mpr hslot)
  have hsize := hslots _ (List.getElem_mem hnonempty) _ hposition
  have hsplit : page.field (24 + 4 * slotIdx) 4 =
      page.field (24 + 4 * slotIdx) 2 + 256 ^ 2 * page.field (24 + 4 * slotIdx + 2) 2 :=
    field_add page.bytes (24 + 4 * slotIdx) 2 2 (by rw [page.length_bytes]; omega)
  have hlow := page.field_lt (24 + 4 * slotIdx) 2
  have hhigh := page.field_lt (24 + 4 * slotIdx + 2) 2
  have hvalue : (page.position 0 slotIdx).toNat = page.field (24 + 4 * slotIdx) 4 := by
    rw [Page.position, Nat.mul_zero, UInt32.toNat_ofNat']
    exact Nat.mod_eq_of_lt (page.field_lt _ 4)
  rw [hvalue, hsplit] at hsize
  rw [Option.some.injEq] at hget
  subst hget
  intro heq
  dsimp only at heq
  omega

/-! ## The scan of a shard -/

/-- The records that a scan finds in a page. -/
def Page.scanned (page : Page) : List UnifiedDocRecord :=
  if page.pageType = PageType.vectorData.code then (List.range page.slotCount).filterMap page.recordAt
  else []

/-- A list is read by its indices. -/
theorem filterMap_getElem?_range {α : Type} (items : List α) :
    (List.range items.length).filterMap (fun i => items[i]?) = items := by
  induction items with
  | nil => rfl
  | cons x rest ih =>
    rw [List.length_cons, List.range_succ_eq_map, List.filterMap_cons_some List.getElem?_cons_zero,
      List.filterMap_map]
    exact congrArg (x :: ·) ih

/-- The results for records, of which the deleted ones are skipped. -/
def resultsFound (tombstones : Page) (ranking : Ranking F) (records : List UnifiedDocRecord) :
    List (UnifiedSearchResult F) :=
  (records.filter fun rec => !ftsTombstoneIsDeleted tombstones rec.docId).filterMap ranking.resultOf

/-- The results for two lists of records. -/
theorem resultsFound_append (tombstones : Page) (ranking : Ranking F) (records more : List UnifiedDocRecord) :
    resultsFound tombstones ranking (records ++ more) =
      resultsFound tombstones ranking records ++ resultsFound tombstones ranking more := by
  rw [resultsFound, List.filter_append, List.filterMap_append, resultsFound, resultsFound]

/-- The results for records of a shard. -/
def ShardView.found (view : ShardView) (ranking : Ranking F) (records : List UnifiedDocRecord) :
    List (UnifiedSearchResult F) :=
  (records.filter fun rec => !view.isDeleted rec.docId).filterMap ranking.resultOf

/-- The results for two lists of records of a shard. -/
theorem ShardView.found_append (view : ShardView) (ranking : Ranking F)
    (records more : List UnifiedDocRecord) :
    view.found ranking (records ++ more) = view.found ranking records ++ view.found ranking more :=
  resultsFound_append view.tombstones ranking records more

/-- The tombstones can be read. -/
structure PageArray.HasTombstones (s : PageArray) (tombstones : Page) : Prop where
  idle : s.Idle
  holds : s.Holds tombstonePageId tombstones

/-- A scan can read all pages. -/
structure PageArray.Scannable (s : PageArray) (tombstones : Page) (image : ℕ → Page) : Prop
    extends s.HasTombstones tombstones where
  pages : ∀ pageId, firstDataPageId ≤ pageId → pageId ≤ s.nextPageId → s.Holds pageId (image pageId)
  inside : ∀ pageId, firstDataPageId ≤ pageId → pageId ≤ s.nextPageId →
    (image pageId).pageType = PageType.vectorData.code → ∀ i, (image pageId).RecordInside i
  started : firstDataPageId ≤ s.nextPageId + 1
  counter : s.nextPageId < invalidPageId

/-- The records in the pages from one on. -/
def recordsFrom (image : ℕ → Page) (pageId nextPageId : ℕ) : List UnifiedDocRecord :=
  (List.range' pageId (nextPageId + 1 - pageId)).flatMap fun id => (image id).scanned

namespace PageArray

section Tombstones

variable {s : PageArray} {tombstones : Page}

/-- Asking whether a document is deleted while its page is pinned. -/
theorem HasTombstones.exec_isDeleted (h : s.HasTombstones tombstones) (pageId : ℕ) (docId : UInt32) :
    arrayHandler.exec (shardIsDeleted docId) (s.pin pageId) =
      some (ftsTombstoneIsDeleted tombstones docId, s.pin pageId) := by
  have hvalid : tombstonePageId < invalidPageId := by decide
  have hfetch : (s.pin pageId).Fetchable tombstonePageId := h.idle.fetchable_of_pins rfl rfl hvalid
  have hclean : tombstonePageId ∉ (s.pin pageId).touched := by
    change tombstonePageId ∉ s.touched
    rw [h.idle.touched]
    exact Set.notMem_empty _
  have hunpin := PageArray.exec_unpinPage ((s.pin pageId).mem_pins_pin tombstonePageId)
    (fun hmem => absurd hmem hclean) (fun hdirty => absurd hdirty Bool.false_ne_true) .normal
  rw [PageArray.unpin_pin] at hunpin
  rw [shardIsDeleted, Handler.exec_bind_of_eq _ (PageArray.exec_fetchPage hfetch)]
  simp only [Bool.not_true, Bool.false_eq_true, if_false]
  have hheld : ((s.pin pageId).pin tombstonePageId).Holds tombstonePageId tombstones := h.holds
  rw [Handler.exec_bind_of_eq _ (PageArray.exec_pageData (PageArray.mem_pins_pin _ _) hheld),
    Handler.exec_bind_of_eq _ hunpin]
  rfl

/-- Looking at one record while its page is pinned. There must be room for a result, if there is one. -/
theorem HasTombstones.exec_considerRecord (h : s.HasTombstones tombstones) (pageId : ℕ)
    (ranking : Ranking F) {maxResults : ℕ} (rec : UnifiedDocRecord)
    (hmax : resultsFound tombstones ranking [rec] ≠ [] → 0 < maxResults)
    (results : List (UnifiedSearchResult F)) :
    arrayHandler.exec (considerRecord ranking maxResults results rec) (s.pin pageId) =
      some (offerAll ranking.key maxResults results (resultsFound tombstones ranking [rec]), s.pin pageId) := by
  rw [resultsFound, List.filter_singleton] at hmax ⊢
  rw [considerRecord, Handler.exec_bind_of_eq _ (h.exec_isDeleted pageId rec.docId)]
  cases hdeleted : ftsTombstoneIsDeleted tombstones rec.docId with
  | true => rfl
  | false =>
    rw [hdeleted] at hmax
    simp only [Bool.false_eq_true, if_false, Bool.not_false, cond_true] at hmax ⊢
    rw [List.filterMap_cons, List.filterMap_nil, Ranking.resultOf] at hmax ⊢
    split_ifs at hmax ⊢ with hadmits hzero
    · exact absurd hzero (hmax (List.cons_ne_nil _ _)).ne'
    · rfl
    · rfl

/-- Looking at the records in some slots of a pinned page. -/
theorem HasTombstones.exec_scanSlots (h : s.HasTombstones tombstones) (pageId : ℕ) (ranking : Ranking F)
    {maxResults : ℕ} (hmax : 0 < maxResults) (page : Page) {slots : List ℕ}
    (hinside : ∀ i ∈ slots, page.RecordInside i) (results : List (UnifiedSearchResult F)) :
    arrayHandler.exec (slots.foldlM (fun results slotIdx => do
      match ← readRecord page slotIdx with
      | none => return results
      | some rec => considerRecord ranking maxResults results rec) results) (s.pin pageId) =
        some (offerAll ranking.key maxResults results
          (resultsFound tombstones ranking (slots.filterMap page.recordAt)), s.pin pageId) := by
  induction slots generalizing results with
  | nil => rfl
  | cons slotIdx slots ih =>
    have hrest := ih fun i hi => hinside i (List.mem_cons_of_mem _ hi)
    rw [List.foldlM_cons, readRecord_eq (hinside slotIdx List.mem_cons_self), pure_bind]
    cases hrecord : page.recordAt slotIdx with
    | none =>
      rw [pure_bind, List.filterMap_cons_none hrecord]
      exact hrest results
    | some rec =>
      have hone := h.exec_considerRecord pageId ranking rec (fun _ => hmax) results
      have hall : resultsFound tombstones ranking ((slotIdx :: slots).filterMap page.recordAt) =
          resultsFound tombstones ranking [rec] ++
            resultsFound tombstones ranking (slots.filterMap page.recordAt) := by
        rw [List.filterMap_cons_some hrecord, ← List.singleton_append, resultsFound_append]
      rw [Handler.exec_bind_of_eq _ hone, hrest, hall, offerAll_append]

/-- Looking at the records of one page. -/
theorem HasTombstones.exec_scanPage (h : s.HasTombstones tombstones) {pageId : ℕ}
    (hvalid : pageId < invalidPageId) {page : Page} (hholds : s.Holds pageId page)
    (hinside : page.pageType = PageType.vectorData.code → ∀ i, page.RecordInside i)
    (ranking : Ranking F) {maxResults : ℕ} (hmax : 0 < maxResults)
    (results : List (UnifiedSearchResult F)) :
    arrayHandler.exec (scanPage ranking maxResults pageId results) s =
      some (offerAll ranking.key maxResults results (resultsFound tombstones ranking page.scanned), s) := by
  rw [scanPage, Handler.exec_bind_of_eq _ (PageArray.exec_fetchPage (h.idle.fetchable hvalid))]
  simp only [Bool.not_true, Bool.false_eq_true, if_false]
  rw [Handler.exec_bind_of_eq _ (PageArray.exec_pageData (s.mem_pins_pin pageId) hholds), Page.scanned]
  by_cases htype : page.pageType = PageType.vectorData.code
  · have hslots := h.exec_scanSlots pageId ranking hmax page
      (fun i (_ : i ∈ List.range page.slotCount) => hinside htype i) results
    rw [if_neg (not_not.mpr htype), if_pos htype, Handler.exec_bind_of_eq _ hslots,
      Handler.exec_bind_of_eq _ (PageArray.exec_unpinPage_clean h.idle pageId .sequentialScan)]
    rfl
  · rw [if_pos htype, if_neg htype,
      Handler.exec_bind_of_eq _ (PageArray.exec_unpinPage_clean h.idle pageId .normal)]
    rfl

end Tombstones

variable {s : PageArray} {tombstones : Page} {image : ℕ → Page}

/-- Looking at the pages from one on. -/
theorem Scannable.exec_scanPagesFrom (h : s.Scannable tombstones image) (ranking : Ranking F)
    {maxResults : ℕ} (hmax : 0 < maxResults) {fuel pageId : ℕ} (hlow : firstDataPageId ≤ pageId)
    (hhigh : pageId ≤ s.nextPageId + 1) (hfuel : s.nextPageId + 1 < pageId + fuel)
    (results : List (UnifiedSearchResult F)) :
    arrayHandler.exec (scanPagesFrom ranking maxResults fuel pageId results) s =
      some (offerAll ranking.key maxResults results
        (resultsFound tombstones ranking (recordsFrom image pageId s.nextPageId)), s) := by
  have hinvalid : invalidPageId = 2 ^ 32 - 1 := rfl
  have hnext := h.counter
  induction fuel generalizing pageId results with
  | zero => exact absurd hfuel (not_lt.mpr hhigh)
  | succ fuel ih =>
    rw [scanPagesFrom, Handler.exec_bind_of_eq _ (PageArray.exec_nextPageId s)]
    by_cases hpage : pageId ≤ s.nextPageId
    · have hone := h.exec_scanPage (hpage.trans_lt hnext) (h.pages pageId hlow hpage)
        (h.inside pageId hlow hpage) ranking hmax results
      have hwrap : (pageId + 1) % 2 ^ 32 = pageId + 1 := Nat.mod_eq_of_lt (by omega)
      have hcount : s.nextPageId + 1 - pageId = s.nextPageId + 1 - (pageId + 1) + 1 := by omega
      have hsplit : recordsFrom image pageId s.nextPageId =
          (image pageId).scanned ++ recordsFrom image (pageId + 1) s.nextPageId := by
        rw [recordsFrom, recordsFrom, hcount, List.range'_succ, List.flatMap_cons]
      rw [if_pos hpage, Handler.exec_bind_of_eq _ hone, hwrap,
        ih (hlow.trans (Nat.le_succ _)) (by omega) (by omega), hsplit, resultsFound_append, offerAll_append]
    · have hnone : s.nextPageId + 1 - pageId = 0 := by omega
      rw [if_neg hpage, recordsFrom, hnone]
      rfl

/-- A search through all pages looks at the records in the order of the pages. -/
theorem Scannable.exec_searchPages (h : s.Scannable tombstones image) (ranking : Ranking F)
    {maxResults : ℕ} (hmax : 0 < maxResults) :
    arrayHandler.exec (searchPages ranking maxResults) s =
      some (exchangeSort ranking.key (offerAll ranking.key maxResults []
        (resultsFound tombstones ranking (recordsFrom image firstDataPageId s.nextPageId))), s) := by
  have hinvalid : invalidPageId = 2 ^ 32 - 1 := rfl
  have hlimit : firstDataPageId + walkLimit = 2 + 2 ^ 32 := rfl
  have hnext := h.counter
  have hscan := h.exec_scanPagesFrom ranking hmax (le_refl firstDataPageId) h.started
    (by omega : s.nextPageId + 1 < firstDataPageId + walkLimit) []
  rw [searchPages, Handler.exec_bind_of_eq _ hscan]
  rfl

end PageArray

/-! ## A shard with a content -/

namespace ShardAt

variable {s : PageArray} {view : ShardView}

/-- The tombstones of a shard can be read. -/
theorem hasTombstones (h : ShardAt s view) : s.HasTombstones view.tombstones := ⟨h.idle, h.tombstones⟩

/-- Looking at one record while its page is pinned. -/
theorem exec_considerRecord (h : ShardAt s view) (pageId : ℕ) (ranking : Ranking F) {maxResults : ℕ}
    (rec : UnifiedDocRecord) (hmax : view.found ranking [rec] ≠ [] → 0 < maxResults)
    (results : List (UnifiedSearchResult F)) :
    arrayHandler.exec (considerRecord ranking maxResults results rec) (s.pin pageId) =
      some (offerAll ranking.key maxResults results (view.found ranking [rec]), s.pin pageId) :=
  h.hasTombstones.exec_considerRecord pageId ranking rec hmax results

/-- What a scan finds in a page of a shard, or in the page that is allocated next. -/
theorem exists_scanned (h : ShardAt s view) (hslots : view.NoRecordSlots) {pageId : ℕ}
    (hlow : firstDataPageId ≤ pageId) (hhigh : pageId ≤ view.nextPageId) :
    ∃ page, s.Holds pageId page ∧
      (page.pageType = PageType.vectorData.code → ∀ i, page.RecordInside i) ∧
        page.scanned = view.data.itemsAt pageId := by
  have hlowTwo : 2 ≤ pageId := hlow
  have hother : ∀ owner, owner ≠ .data → view.Owns owner pageId → view.data.itemsAt pageId = [] := by
    intro owner hne howner
    exact PageChain.itemsAt_eq_nil (h.valid.owned.not_owns howner hne.symm)
  obtain hnext | hbelow := hhigh.eq_or_lt
  · have hbeyond := h.beyond pageId (h.extent.trans hnext.symm).le
    obtain ⟨htype, -⟩ := slottedPageInit_fields pageId .row
    have hno : (slottedPageInit pageId .row).pageType ≠ PageType.vectorData.code := by
      rw [htype]
      decide
    refine ⟨_, hbeyond, fun htype => absurd htype hno, ?_⟩
    rw [Page.scanned, if_neg hno, PageChain.itemsAt_eq_nil fun hmem => ?_]
    exact absurd (h.valid.owned.bound .data pageId hmem) (by omega)
  obtain ⟨owner, howner⟩ := h.valid.owned.cover pageId hbelow
  cases owner with
  | tree =>
    obtain ⟨⟨id, leaf⟩, hleaf, rfl⟩ := List.mem_map.mp howner
    obtain ⟨-, -, page, next, hholds, hpage⟩ := h.tree.leaves.page hleaf
    have hno : page.pageType ≠ PageType.vectorData.code := by
      rw [hpage.pageType]
      decide
    refine ⟨page, hholds, fun htype => absurd htype hno, ?_⟩
    rw [Page.scanned, if_neg hno, hother .tree nofun howner]
  | tombstones =>
    have hone : pageId = 1 := howner
    omega
  | data =>
    obtain ⟨⟨id, records⟩, hmem, rfl⟩ := List.mem_map.mp howner
    obtain ⟨-, page, hholds, hpage⟩ : _ ∧ ∃ page, s.Holds id page ∧ IsDataPage page records :=
      h.data _ hmem
    refine ⟨page, hholds, fun _ => hpage.recordInside, ?_⟩
    have hnodup : view.data.ids.Nodup := h.valid.dataDescending.imp fun hgt => (ne_of_gt hgt)
    rw [PageChain.itemsAt_of_mem hnodup hmem, Page.scanned, if_pos hpage.pageType, hpage.slotCount]
    rw [funext hpage.recordAt, filterMap_getElem?_range]
  | term termId =>
    obtain ⟨⟨id, items⟩, hmem, rfl⟩ := List.mem_map.mp howner
    obtain ⟨-, -, page, next, hholds, hpage⟩ := (h.postings termId).page hmem
    have hitems : ∀ posting ∈ items, posting.NoRecordSlot := by
      intro posting hposting
      refine hslots termId posting ((PageChain.perm_contents _).mem_iff.mp ?_)
      exact List.mem_flatMap.mpr ⟨_, hmem, hposting⟩
    have hlength : ∀ {i ref}, slottedPageGetTuple page i = some ref →
        ref.length ≠ unifiedDocRecordSize := fun hget => hpage.getTuple_length hitems hget
    refine ⟨page, hholds, fun _ i ref hget hsize => absurd hsize (hlength hget), ?_⟩
    rw [hother (.term termId) nofun howner, Page.scanned]
    split_ifs
    · rw [List.filterMap_eq_nil_iff]
      intro i _
      rw [Page.recordAt]
      cases hget : slottedPageGetTuple page i with
      | none => rfl
      | some ref => exact if_neg (hlength hget)
    · rfl

/-- A shard can be scanned, and the scan meets its records in the order in which they were inserted. -/
theorem exists_scannable (h : ShardAt s view) (hslots : view.NoRecordSlots)
    (hnext : view.nextPageId < invalidPageId) :
    ∃ image, s.Scannable view.tombstones image ∧
      recordsFrom image firstDataPageId s.nextPageId = view.data.chronological := by
  have hpage : ∀ pageId, ∃ page, firstDataPageId ≤ pageId → pageId ≤ s.nextPageId →
      s.Holds pageId page ∧ (page.pageType = PageType.vectorData.code → ∀ i, page.RecordInside i) ∧
        page.scanned = view.data.itemsAt pageId := by
    intro pageId
    by_cases hbounds : firstDataPageId ≤ pageId ∧ pageId ≤ s.nextPageId
    · obtain ⟨page, hscanned⟩ := h.exists_scanned hslots hbounds.1 (h.counter ▸ hbounds.2)
      exact ⟨page, fun _ _ => hscanned⟩
    · exact ⟨.zero, fun hlow hhigh => absurd ⟨hlow, hhigh⟩ hbounds⟩
  choose image himage using hpage
  have hpositive : firstDataPageId ≤ s.nextPageId + 1 := by
    rw [h.counter]
    exact (h.valid.positive.trans' (by decide)).trans (Nat.le_succ _)
  refine ⟨image, ⟨h.hasTombstones, fun pageId hlow hhigh => (himage pageId hlow hhigh).1,
    fun pageId hlow hhigh => (himage pageId hlow hhigh).2.1, hpositive, h.counter ▸ hnext⟩, ?_⟩
  have hrange : ∀ id ∈ view.data.ids, firstDataPageId ≤ id ∧
      id < firstDataPageId + (s.nextPageId + 1 - firstDataPageId) := by
    intro id hid
    have hbound := h.valid.owned.bound .data id hid
    have hlow := h.firstDataPageId_le hid
    have hfirst : firstDataPageId = 2 := rfl
    have hcounter := h.counter
    omega
  rw [recordsFrom, ← PageChain.flatMap_itemsAt h.valid.dataDescending hrange]
  apply List.flatMap_congr
  intro pageId hmem
  obtain ⟨hlow, hhigh⟩ := List.mem_range'_1.mp hmem
  exact (himage pageId hlow (by omega)).2.2

/-- A search through all pages looks at the records in the order in which they were inserted. -/
theorem exec_searchPages (h : ShardAt s view) (hslots : view.NoRecordSlots)
    (hnext : view.nextPageId < invalidPageId) (ranking : Ranking F) {maxResults : ℕ}
    (hmax : 0 < maxResults) :
    arrayHandler.exec (searchPages ranking maxResults) s =
      some (exchangeSort ranking.key (offerAll ranking.key maxResults []
        (view.found ranking view.data.chronological)), s) := by
  obtain ⟨image, hscannable, hrecords⟩ := h.exists_scannable hslots hnext
  rw [hscannable.exec_searchPages ranking hmax, hrecords]
  rfl

end ShardAt

end FtsUring
