import FtsUring.Shard.Occurrences
import FtsUring.Storage.PageImage

/-!
# Reading the inverted index

After any sequence of insertions into a new shard, `invertedIndexGetPostings` returns one posting for
each document with the term, exactly when no two documents that follow each other under the term were
given the same id, which happens only when the 32-bit document counter wraps.
-/

namespace FtsUring

open Foundation

/-- Reading the postings of a term. -/
theorem ShardAt.exec_getPostings {s : PageArray} {view : ShardView} (h : ShardAt s view)
    (termId : UInt32) {maxPostings : ℕ} (hmax : maxPostings < 2 ^ 32) :
    arrayHandler.exec (invertedIndexGetPostings termId maxPostings) s =
      some ((view.postings termId).contents.take maxPostings, s) := by
  have hpostings := h.postings termId
  rw [invertedIndexGetPostings, Handler.exec_bind_of_eq _ (h.exec_searchTerm termId)]
  cases hchain : view.postings termId with
  | nil =>
    rw [PageChain.contents, List.flatMap_nil, List.take_nil]
    rfl
  | cons first rest =>
    rw [← hchain]
    have hlow := h.valid.low termId
    have hnext : ∀ id ∈ (view.postings termId).ids, id < s.nextPageId := by
      intro id hid
      rw [h.counter]
      exact h.valid.lt_nextPageId hid
    have hread := exec_getPostingsFrom h.idle hpostings hlow hnext (h.valid.descending termId)
      maxPostings [] (lt_of_le_of_lt (min_le_right _ _) (by simpa using hmax)) (Nat.zero_le _)
    have hfirst : PostingPages.firstId (view.postings termId) = first.1 := by rw [hchain]; rfl
    rw [hfirst, List.nil_append] at hread
    rw [hchain, PageChain.ids_cons, List.head?_cons]
    exact hchain ▸ hread

/-- The posting leads to the record of the document. -/
structure PostingRecords (m : Machine) (termId : UInt32) (posting : InvertedPosting)
    (entry : Document × ℕ) : Prop where
  docId : posting.docId = UInt32.ofNat entry.2
  addressed : ∃ ref, slottedPageGetTuple (m.pageImage posting.dataPageId) posting.dataSlotId =
      some ref ∧ ref.length = unifiedDocRecordSize ∧
    UnifiedDocRecord.decode ((m.pageImage posting.dataPageId).tuple ref) =
      entry.1.record (UInt32.ofNat entry.2)
  positions : termId ≠ 0 →
    posting.positions = (termPositions termId 0 entry.1.termIds).take maxPositionsPerPosting

/-- The documents that are posted under a term, with their numbers. -/
def holders (termId : UInt32) (docs : List Document) : List (Document × ℕ) :=
  docs.zipIdx.filter fun entry => entry.1.PostedUnder termId

/-- The ids of the documents of a term are those of its holders. -/
theorem holderIds_storedDocuments (termId : UInt32) {docs : List Document} {locations : List (ℕ × ℕ)}
    (hlength : docs.length = locations.length) :
    holderIds termId (storedDocuments docs locations) =
      (holders termId docs).map fun entry => UInt32.ofNat entry.2 := by
  have hzip : ∀ (entries : List (Document × ℕ)) (places : List (ℕ × ℕ)),
      entries.length = places.length →
        holderIds termId (List.zipWith (fun entry location =>
            (⟨entry.1, UInt32.ofNat entry.2, location⟩ : StoredDocument)) entries places) =
          (entries.filter fun entry => entry.1.PostedUnder termId).map
            fun entry => UInt32.ofNat entry.2 := by
    intro entries places hsame
    induction entries generalizing places with
    | nil => rfl
    | cons entry entries ih =>
      cases places with
      | nil => exact absurd hsame (Nat.succ_ne_zero _)
      | cons place places =>
        have hrest := ih places (Nat.succ_injective hsame)
        rw [holderIds] at hrest ⊢
        rw [List.zipWith_cons_cons]
        by_cases hposted : entry.1.PostedUnder termId
        · rw [List.filter_cons_of_pos (by simpa using hposted),
            List.filter_cons_of_pos (by simpa using hposted), List.map_cons, List.map_cons, hrest]
        · rw [List.filter_cons_of_neg (by simpa using hposted),
            List.filter_cons_of_neg (by simpa using hposted), hrest]
  exact hzip docs.zipIdx locations (by rw [List.length_zipIdx, hlength])

/-- One posting for each document with the term. -/
theorem forall₂_recordedPostings {m : Machine} (termId : UInt32) {entries : List (Document × ℕ)}
    {places : List (ℕ × ℕ)} (hlength : entries.length = places.length)
    (hplaces : ∀ place ∈ entries.zip places, ∃ ref,
      slottedPageGetTuple (m.pageImage place.2.1) place.2.2 = some ref ∧
        ref.length = unifiedDocRecordSize ∧
        UnifiedDocRecord.decode ((m.pageImage place.2.1).tuple ref) =
          place.1.1.record (UInt32.ofNat place.1.2)) :
    List.Forall₂ (PostingRecords m termId)
      (recordedPostings termId (List.zipWith (fun entry location =>
        (⟨entry.1, UInt32.ofNat entry.2, location⟩ : StoredDocument)) entries places))
      (entries.filter fun entry => entry.1.PostedUnder termId) := by
  induction entries generalizing places with
  | nil => exact List.Forall₂.nil
  | cons entry entries ih =>
    cases places with
    | nil => exact absurd hlength (Nat.succ_ne_zero _)
    | cons place places =>
      have hrest := ih (Nat.succ_injective hlength)
        fun other hother => hplaces other (List.mem_cons_of_mem _ hother)
      rw [recordedPostings] at hrest ⊢
      rw [List.zipWith_cons_cons, List.flatMap_cons]
      by_cases hposted : entry.1.PostedUnder termId
      · have hsome : entry.1.postedPositions termId ≠ [] :=
          fun hnil => (entry.1.postedPositions_eq_nil termId).mp hnil hposted
        rw [List.filter_cons_of_pos (by simpa using hposted), postingAt, if_neg hsome,
          List.singleton_append]
        refine List.Forall₂.cons ⟨rfl, hplaces (entry, place) List.mem_cons_self, ?_⟩ hrest
        intro hterm
        rw [Document.postedPositions, if_neg hterm, List.append_nil]
      · have hnone := (entry.1.postedPositions_eq_nil termId).mpr hposted
        rw [List.filter_cons_of_neg (by simpa using hposted), postingAt, if_pos hnone,
          List.nil_append]
        exact hrest

/-- On a machine, after a sequence of insertions into a new shard that all succeed, the index
returns exactly the postings of the documents with a term. -/
def IndexesExactly (F : Type) [Double F] (m : Machine) (docs : List Document) : Prop :=
  ∃ shard : Shard F, ∃ m', poolHandler.exec (runFreshShard (docs.map .insert)) m =
      some (some (docs.map fun _ => true, shard), m') ∧
    ∀ termId maxPostings, (holders termId docs).length ≤ maxPostings → maxPostings < 2 ^ 32 →
      ∃ found m'', poolHandler.exec (invertedIndexGetPostings termId maxPostings) m' =
          some (found, m'') ∧
        ∃ postings, found.Perm postings ∧
          List.Forall₂ (PostingRecords m' termId) postings (holders termId docs)

/-- The documents of a term that follow each other were given different ids, unless there are too
many of them for one call. -/
def IdsNeverRepeat (docs : List Document) : Prop :=
  ∀ termId, (holders termId docs).length < 2 ^ 32 →
    ((holders termId docs).map fun entry => UInt32.ofNat entry.2).IsChain (· ≠ ·)

namespace ShardAt

variable {s : PageArray} {view : ShardView} {m : Machine}

/-- The image of a data page. -/
theorem isDataPage_pageImage (h : ShardAt s view) (hm : Represents m s) {id : ℕ}
    {records : List UnifiedDocRecord} (hmem : (id, records) ∈ view.data) :
    IsDataPage (m.pageImage id) records := by
  obtain ⟨-, page, hholds, hpage⟩ : _ ∧ ∃ page, s.Holds id page ∧ IsDataPage page records :=
    h.data _ hmem
  have hid : view.Owns .data id := List.mem_map_of_mem hmem
  rw [hm.pageImage_eq h.idle.touched (h.lt_invalid hid) hholds]
  exact hpage

/-- The record of an inserted document is found at its location. -/
theorem exists_tuple (h : ShardAt s view) (hm : Represents m s) {docs : List Document}
    (hindexed : Indexed view docs) {place : (Document × ℕ) × (ℕ × ℕ)}
    (hplace : place ∈ docs.zipIdx.zip view.data.locations) :
    ∃ ref, slottedPageGetTuple (m.pageImage place.2.1) place.2.2 = some ref ∧
      ref.length = unifiedDocRecordSize ∧
      UnifiedDocRecord.decode ((m.pageImage place.2.1).tuple ref) =
        place.1.1.record (UInt32.ofNat place.1.2) := by
  obtain ⟨i, hi⟩ := List.mem_iff_getElem?.mp hplace
  rw [List.getElem?_zip_eq_some] at hi
  have hmem : (place.2, place.1.1.record (UInt32.ofNat place.1.2)) ∈
      view.data.locations.zip view.data.chronological := by
    rw [hindexed.records]
    refine List.mem_iff_getElem?.mpr ⟨i, List.getElem?_zip_eq_some.mpr ⟨hi.2, ?_⟩⟩
    rw [List.getElem?_map, hi.1, Option.map_some]
  obtain ⟨records, hpage, hrecord⟩ := PageChain.exists_page_of_mem_zip hmem
  obtain ⟨hslot, hrecord⟩ := List.getElem?_eq_some_iff.mp hrecord
  have hdata := h.isDataPage_pageImage hm hpage
  refine ⟨recordRef place.2.2, hdata.getTuple _ hslot, rfl, ?_⟩
  rw [hdata.decode_tuple hslot, hrecord]

end ShardAt

section Pools

variable {F : Type} [Double F]

/-- The postings of a term are those of the documents with the term, exactly when no id repeats
under it. -/
theorem length_postings_iff {docs : List Document} {view : ShardView} (h : Indexed view docs)
    (termId : UInt32) :
    (view.postings termId).contents.length = (holders termId docs).length ↔
      IdsApart termId (storedDocuments docs view.data.locations) := by
  obtain ⟨-, -, hcount, -⟩ := indexPostings_spec termId (storedDocuments docs view.data.locations)
  rw [← hcount, holderIds_storedDocuments termId h.length_locations, List.length_map, ← h.postings,
    (PageChain.perm_contents (view.postings termId)).length_eq]

/-- What the calls leave, and what the index returns afterwards. -/
theorem exec_runFreshShard_postings {host : Host} (hfree : host.FaultFree)
    (hempty : host.dataFile = []) (wal : WALManager) {diskFd : ℤ} {poolSize nextPageId : ℕ}
    (hpool : UsablePool diskFd poolSize nextPageId) {docs : List Document}
    (hfits : (ShardView.fresh.updates (docs.map .insert)).nextPageId ≤ invalidPageId) :
    ∃ shard : Shard F, ∃ s m view, poolHandler.exec (runFreshShard (docs.map .insert))
        (newMachine diskFd wal host poolSize nextPageId) =
          some (some (docs.map fun _ => true, shard), m) ∧
      Represents m s ∧ ShardAt s view ∧ Indexed view docs ∧
      ∀ termId maxPostings, maxPostings < 2 ^ 32 →
        ∃ m', poolHandler.exec (invertedIndexGetPostings termId maxPostings) m =
          some ((view.postings termId).contents.take maxPostings, m') := by
  obtain ⟨s, hs, hrun⟩ := exec_runFreshShard (F := F) hfree hempty wal hfits
  obtain ⟨m, hexec, hm⟩ := hrun diskFd poolSize nextPageId hpool
  have hinserted : insertedDocuments (docs.map .insert) = docs := by
    rw [insertedDocuments, List.filterMap_map]
    exact List.filterMap_some
  have hindexed := Indexed.fresh.updates ShardView.valid_fresh hfits
  rw [hinserted, List.nil_append] at hindexed
  rw [List.map_map] at hexec
  refine ⟨_, s, m, _, hexec, hm, hs, hindexed, fun termId maxPostings hmax => ?_⟩
  obtain ⟨m', hm', -⟩ := poolHandler_simulates.exec hm (hs.exec_getPostings termId hmax)
  exact ⟨m', hm'⟩

/-- When the index returns exactly the postings of the documents with a term, no id repeats. -/
theorem IndexesExactly.idsNeverRepeat {host : Host} (hfree : host.FaultFree)
    (hempty : host.dataFile = []) (wal : WALManager) {diskFd : ℤ} {poolSize nextPageId : ℕ}
    (hpool : UsablePool diskFd poolSize nextPageId) {docs : List Document}
    (hfits : (ShardView.fresh.updates (docs.map .insert)).nextPageId ≤ invalidPageId)
    (h : IndexesExactly F (newMachine diskFd wal host poolSize nextPageId) docs) :
    IdsNeverRepeat docs := by
  obtain ⟨shard, s, m, view, hexec, -, -, hindexed, hread⟩ :=
    exec_runFreshShard_postings (F := F) hfree hempty wal hpool hfits
  obtain ⟨shard', m', hexec', hall⟩ := h
  intro termId hsmall
  rw [hexec, Option.some.injEq, Prod.mk.injEq] at hexec'
  obtain ⟨-, rfl⟩ := hexec'
  obtain ⟨found, m'', hfound, postings, hperm, hpostings⟩ := hall termId _ (le_refl _) hsmall
  obtain ⟨m', hm'⟩ := hread termId _ hsmall
  rw [hm', Option.some.injEq, Prod.mk.injEq] at hfound
  have hlength := hperm.length_eq.trans hpostings.length_eq
  rw [← hfound.1, List.length_take, min_eq_left_iff] at hlength
  have hids := holderIds_storedDocuments termId hindexed.length_locations
  obtain ⟨-, hle, -, -⟩ := indexPostings_spec termId (storedDocuments docs view.data.locations)
  rw [← hindexed.postings, hids, List.length_map,
    ← (PageChain.perm_contents (view.postings termId)).length_eq] at hle
  have hapart := (length_postings_iff hindexed termId).mp (le_antisymm hle hlength)
  rwa [IdsApart, hids] at hapart

/-- The index returns exactly the postings of the documents with a term when no document id repeats
under a term. -/
theorem indexesExactly_iff {host : Host} (hfree : host.FaultFree) (hempty : host.dataFile = [])
    (wal : WALManager) {diskFd : ℤ} {poolSize nextPageId : ℕ}
    (hpool : UsablePool diskFd poolSize nextPageId) {docs : List Document}
    (hfits : (ShardView.fresh.updates (docs.map .insert)).nextPageId ≤ invalidPageId) :
    IndexesExactly F (newMachine diskFd wal host poolSize nextPageId) docs ↔ IdsNeverRepeat docs := by
  refine ⟨IndexesExactly.idsNeverRepeat hfree hempty wal hpool hfits, fun hnever => ?_⟩
  obtain ⟨shard, s, m, view, hexec, hm, hs, hindexed, hread⟩ :=
    exec_runFreshShard_postings (F := F) hfree hempty wal hpool hfits
  refine ⟨shard, m, hexec, fun termId maxPostings hholders hmax => ?_⟩
  have hapart : IdsApart termId (storedDocuments docs view.data.locations) := by
    rw [IdsApart, holderIds_storedDocuments termId hindexed.length_locations]
    exact hnever termId (hholders.trans_lt hmax)
  obtain ⟨-, -, -, hrecorded⟩ :=
    indexPostings_spec termId (storedDocuments docs view.data.locations)
  have hcount := (length_postings_iff hindexed termId).mpr hapart
  obtain ⟨m', hm'⟩ := hread termId maxPostings hmax
  rw [List.take_of_length_le (hcount.trans_le hholders)] at hm'
  refine ⟨_, m', hm', _, PageChain.perm_contents _, ?_⟩
  rw [hindexed.postings, hrecorded hapart]
  refine forall₂_recordedPostings termId ?_ fun place hplace => hs.exists_tuple hm hindexed hplace
  rw [List.length_zipIdx, hindexed.length_locations]

/-- Two documents with a common term, in a pool of two frames. -/
theorem indexesExactly_iff_two_frames :
    IndexesExactly ℚ (newMachine 0 ⟨3, 0⟩ Host.empty 2 0)
        [.ofTerms 1 1 [7, 9, 7] (by decide), .ofTerms 2 1 [7] (by decide)] ↔
      IdsNeverRepeat [.ofTerms 1 1 [7, 9, 7] (by decide), .ofTerms 2 1 [7] (by decide)] :=
  indexesExactly_iff ⟨rfl, rfl, rfl, rfl⟩ rfl ⟨3, 0⟩ ⟨le_refl 0, le_refl 2, by decide, by decide⟩
    (by decide)

end Pools

/-! ## More documents than ids -/

namespace ShardView

/-- A posting takes at most two pages. -/
theorem nextPageId_addPosting_le (view : ShardView) (termId : UInt32) (posting : InvertedPosting) :
    (view.addPosting termId posting).nextPageId ≤ view.nextPageId + 2 := by
  have hsplits := (view.tree.splits termId.toUInt64).toNat_le
  rw [ShardView.addPosting]
  dsimp only
  split
  · split_ifs <;> dsimp only [ShardView.setPostings] <;> omega
  · dsimp only [ShardView.setPostings]
    omega

/-- The postings of the terms of a document take at most two pages each. -/
theorem nextPageId_addPostings_le (view : ShardView) (docId : UInt32) (pageId slotId position : ℕ)
    (termIds : List UInt32) :
    (view.addPostings docId pageId slotId position termIds).nextPageId ≤
      view.nextPageId + 2 * termIds.length := by
  induction termIds generalizing view position with
  | nil => exact le_refl _
  | cons termId termIds ih =>
    have hfirst := view.nextPageId_addPosting_le termId ⟨docId, pageId, slotId, [UInt32.ofNat position]⟩
    have hrest := ih (view.addPosting termId ⟨docId, pageId, slotId, [UInt32.ofNat position]⟩) (position + 1)
    rw [addPostings, List.length_cons]
    omega

/-- A document takes one data page, and two pages for each of its terms and for term 0. -/
theorem nextPageId_insertDocument_le (view : ShardView) (doc : Document) :
    (view.insertDocument doc).nextPageId ≤ view.nextPageId + (2 * doc.termIds.length + 3) := by
  rw [insertDocument]
  set stored := view.storeRecord (doc.record view.nextDocId)
  have hstored : stored.nextPageId ≤ view.nextPageId + 1 := Nat.add_le_add_left (Bool.toNat_le _) _
  have hterms := stored.nextPageId_addPostings_le view.nextDocId stored.activePage stored.newestSlot 0 doc.termIds
  refine (nextPageId_addPosting_le _ _ _).trans ?_
  omega

/-- The pages that a sequence of calls takes. -/
theorem nextPageId_updates_le (view : ShardView) {updates : List ShardUpdate} {most : ℕ}
    (hmost : ∀ doc ∈ insertedDocuments updates, doc.termIds.length ≤ most) :
    (view.updates updates).nextPageId ≤
      view.nextPageId + (insertedDocuments updates).length * (2 * most + 3) := by
  induction updates generalizing view with
  | nil => exact Nat.le_add_right _ _
  | cons update updates ih =>
    cases update with
    | delete docId => exact ih (view.update (.delete docId)) hmost
    | insert doc =>
      have hinserted : insertedDocuments (.insert doc :: updates) = doc :: insertedDocuments updates := rfl
      rw [hinserted] at hmost ⊢
      obtain ⟨hdoc, hlater⟩ := List.forall_mem_cons.mp hmost
      have hfirst : (view.update (.insert doc)).nextPageId ≤ _ := view.nextPageId_insertDocument_le doc
      have hrest := ih (view.update (.insert doc)) hlater
      rw [updates_cons, List.length_cons, Nat.add_one_mul]
      omega

/-- The content after one document with a term and a number of documents without terms. -/
structure AfterBlanks (view : ShardView) (count : ℕ) : Prop where
  nextDocId : view.nextDocId = UInt32.ofNat (count + 1)
  nextPageId : view.nextPageId = 5 + count / 2 + count / 92
  data : ∃ id records rest, view.data = (id, records) :: rest ∧ records.length = count % 2 + 1
  zero : ∃ id front last rest, view.postings 0 = (id, front ++ [last]) :: rest ∧
    front.length = count % 92 ∧ last.docId = UInt32.ofNat count

/-- One document without terms more. -/
theorem AfterBlanks.insertDocument {view : ShardView} {count : ℕ} (h : view.AfterBlanks count)
    {doc : Document} (hblank : doc.termIds = []) : (view.insertDocument doc).AfterBlanks (count + 1) := by
  obtain ⟨id, records, rest, hdata, hrecords⟩ := h.data
  obtain ⟨zeroId, front, last, zeroRest, hzero, hfront, hlast⟩ := h.zero
  have hids : last.docId ≠ view.nextDocId := by
    rw [hlast, h.nextDocId, ne_eq, UInt32.ofNat_eq_iff_mod_eq_toNat, UInt32.toNat_ofNat']
    omega
  have hnextDoc : (view.insertDocument doc).nextDocId = UInt32.ofNat (count + 1 + 1) := by
    rw [nextDocId_insertDocument, h.nextDocId]
    exact (UInt32.ofNat_add _ _).symm
  have hcapacity : dataPageCapacity = 2 := rfl
  have hposting : maxPostingsPerPage = 92 := rfl
  have hcounter := h.nextPageId
  set stored := view.storeRecord (doc.record view.nextDocId) with hstored
  -- every second document takes a data page
  have hdata' : stored.nextPageId = 5 + (count + 1) / 2 + count / 92 ∧
      ∃ id records rest, stored.data = (id, records) :: rest ∧
        records.length = (count + 1) % 2 + 1 := by
    rw [hstored, ShardView.storeRecord]
    dsimp only
    rw [hdata, PageChain.push, PageChain.needsPage]
    by_cases hroom : records.length < dataPageCapacity
    · rw [if_pos hroom, decide_eq_false (by omega)]
      refine ⟨?_, id, _, rest, rfl, ?_⟩
      · rw [Bool.toNat_false]
        omega
      · rw [List.length_append, List.length_singleton]
        omega
    · rw [if_neg hroom, decide_eq_true (by omega)]
      refine ⟨?_, _, _, _, rfl, ?_⟩
      · rw [Bool.toNat_true]
        omega
      · rw [List.length_singleton]
        omega
  obtain ⟨hstoredNext, hstoredData⟩ := hdata'
  have hinsert : view.insertDocument doc = stored.addPosting 0
      ⟨view.nextDocId, stored.activePage, stored.newestSlot, [0]⟩ := by
    rw [ShardView.insertDocument, hblank]
    rfl
  have hzero' : stored.postings 0 = (zeroId, front ++ [last]) :: zeroRest := hzero
  have hlength : (front ++ [last]).length = front.length + 1 := List.length_append
  refine ⟨hnextDoc, ?_, ?_, ?_⟩
  -- and every 92nd one a page under term 0
  · rw [hinsert]
    by_cases hroom : (front ++ [last]).length < maxPostingsPerPage
    · rw [addPosting_of_room hzero' hids hroom, ShardView.setPostings, hstoredNext]
      omega
    · rw [addPosting_of_full hzero' hids hroom, hstoredNext]
      dsimp only
      omega
  · rw [hinsert, data_addPosting]
    exact hstoredData
  · rw [hinsert]
    have hnewest : view.nextDocId = UInt32.ofNat (count + 1) := h.nextDocId
    by_cases hroom : (front ++ [last]).length < maxPostingsPerPage
    · rw [addPosting_of_room hzero' hids hroom, postings_setPostings, if_pos rfl]
      refine ⟨_, _, _, _, rfl, ?_, hnewest⟩
      omega
    · rw [addPosting_of_full hzero' hids hroom]
      dsimp only
      rw [postings_setPostings, if_pos rfl]
      refine ⟨_, [], _, _, rfl, ?_, hnewest⟩
      rw [List.length_nil]
      omega

/-- Documents without terms more. -/
theorem AfterBlanks.updates {view : ShardView} {count : ℕ} (h : view.AfterBlanks count) {doc : Document}
    (hblank : doc.termIds = []) (more : ℕ) :
    (view.updates (List.replicate more (.insert doc))).AfterBlanks (count + more) := by
  induction more generalizing view count with
  | zero => exact h
  | succ more ih =>
    have hstep := ih (h.insertDocument hblank)
    rwa [Nat.add_right_comm] at hstep

end ShardView

/-- The first document, and the one that gets its id again. -/
def firstDocument : Document := .ofTerms 1 1 [1] (by decide)

/-- The documents in between. -/
def blankDocument : Document := .ofTerms 2 1 [] (by decide)

/-- A number of documents between two that have a term. -/
def blanksBetween (count : ℕ) : List Document :=
  firstDocument :: (List.replicate count blankDocument ++ [firstDocument])

/-- The pages that these documents need. -/
theorem nextPageId_blanksBetween_le (count : ℕ) :
    (ShardView.fresh.updates ((blanksBetween count).map .insert)).nextPageId ≤
      10 + count / 2 + count / 92 := by
  have hfirst : (ShardView.fresh.update (.insert firstDocument)).AfterBlanks 0 := by
    refine ⟨rfl, rfl, ⟨_, _, _, rfl, rfl⟩, ⟨_, [], _, _, rfl, rfl, rfl⟩⟩
  have hblanks := hfirst.updates (rfl : blankDocument.termIds = []) count
  have hmap : (blanksBetween count).map ShardUpdate.insert = .insert firstDocument ::
      (List.replicate count (.insert blankDocument) ++ [.insert firstDocument]) := by
    rw [blanksBetween, List.map_cons, List.map_append, List.map_replicate]
    rfl
  rw [hmap, ShardView.updates_cons, ShardView.updates_append]
  generalize (ShardView.fresh.update (.insert firstDocument)).updates
    (List.replicate count (.insert blankDocument)) = view at hblanks ⊢
  have hlast : view.updates [.insert firstDocument] = view.insertDocument firstDocument := rfl
  have hterms : firstDocument.termIds = [1] := rfl
  rw [hlast, ShardView.insertDocument, hterms]
  set stored := view.storeRecord (firstDocument.record view.nextDocId)
  have hstored : stored.nextPageId ≤ view.nextPageId + 1 := Nat.add_le_add_left (Bool.toNat_le _) _
  have hterm := stored.nextPageId_addPosting_le 1
    ⟨view.nextDocId, stored.activePage, stored.newestSlot, [UInt32.ofNat 0]⟩
  refine (ShardView.nextPageId_addPosting_le _ _ _).trans ?_
  have hcounter := hblanks.nextPageId
  rw [Nat.zero_add] at hcounter
  rw [ShardView.addPostings, ShardView.addPostings]
  omega

/-- When the ids wrap in between, the id of the first document follows itself under term 1. -/
theorem not_idsNeverRepeat_blanksBetween {count : ℕ} (hwraps : UInt32.ofNat (count + 1) = 0) :
    ¬IdsNeverRepeat (blanksBetween count) := by
  have hblank : ¬blankDocument.PostedUnder 1 := by decide
  have hfirst : firstDocument.PostedUnder 1 := by decide
  have hholders : holders 1 (blanksBetween count) =
      [(firstDocument, 0), (firstDocument, count + 1)] := by
    have hnone : ∀ start, ((List.replicate count blankDocument).zipIdx start).filter
        (fun entry => decide (entry.1.PostedUnder 1)) = [] := by
      intro start
      rw [List.filter_eq_nil_iff]
      intro entry hentry
      rw [List.eq_of_mem_replicate (List.fst_mem_of_mem_zipIdx hentry)]
      simpa using hblank
    rw [holders, blanksBetween, List.zipIdx_cons, List.zipIdx_append,
      List.filter_cons_of_pos (by simpa using hfirst), List.filter_append, hnone, List.nil_append,
      List.length_replicate, List.zipIdx_singleton, List.filter_cons_of_pos (by simpa using hfirst),
      List.filter_nil, Nat.zero_add, Nat.add_comm]
  intro hnever
  have hsmall : (holders 1 (blanksBetween count)).length < 2 ^ 32 := by
    rw [hholders]
    exact (by decide : 2 < 2 ^ 32)
  have hchain := hnever 1 hsmall
  rw [hholders, List.map_cons, List.map_cons, List.map_nil, hwraps] at hchain
  exact absurd hchain (by decide)

/-- After as many documents as there are ids, and one more, the index does not return both postings
of term 1. -/
theorem not_indexesExactly_wrapping :
    ¬IndexesExactly ℚ (newMachine 0 ⟨3, 0⟩ Host.empty 2 0) (blanksBetween (2 ^ 32 - 1)) := by
  intro h
  have hfits := nextPageId_blanksBetween_le (2 ^ 32 - 1)
  have hpool : UsablePool 0 2 0 := ⟨le_refl 0, le_refl 2, by decide, by decide⟩
  exact not_idsNeverRepeat_blanksBetween (by decide)
    (h.idsNeverRepeat ⟨rfl, rfl, rfl, rfl⟩ rfl ⟨3, 0⟩ hpool (hfits.trans (by decide)))

end FtsUring
