import FtsUring.Search.Indexed

/-!
# What the searches find

After insertions and deletions on a new shard, a search looks at the records of the inserted documents.
The scan looks at all of them. The indexed search of a term looks at those of which the index keeps a
posting: the documents with the term, without those whose id is the one of the document before them
under the term.
-/

namespace FtsUring

open Foundation

/-! ## The documents behind the postings -/

/-- The record of an inserted document. -/
def StoredDocument.record (entry : StoredDocument) : UnifiedDocRecord := entry.doc.record entry.docId

/-- The id and the place of an inserted document. -/
def StoredDocument.address (entry : StoredDocument) : UInt32 × ℕ × ℕ := (entry.docId, entry.location)

/-- The id and the place to which a posting leads. -/
def InvertedPosting.address (posting : InvertedPosting) : UInt32 × ℕ × ℕ :=
  (posting.docId, posting.dataPageId, posting.dataSlotId)

section KeepApart

variable {α β : Type} (holds : α → Prop) [DecidablePred holds] (docId : α → UInt32)

/-- Keep an item if it is wanted and has another id than the one that was kept last. -/
def keepApart (kept : List α) (item : α) : List α :=
  if holds item ∧ kept.getLast?.map docId ≠ some (docId item) then kept ++ [item] else kept

/-- The items that are kept. -/
def keptApart (items : List α) : List α := items.foldl (keepApart holds docId) []

/-- One item more. -/
theorem keptApart_concat (items : List α) (item : α) :
    keptApart holds docId (items ++ [item]) =
      keepApart holds docId (keptApart holds docId items) item := by
  rw [keptApart, List.foldl_append]
  rfl

/-- Keeping depends only on whether an item is wanted, and on its id. -/
theorem map_keptApart (view : β → α) (items : List β) :
    (keptApart (fun item => holds (view item)) (fun item => docId (view item)) items).map view =
      keptApart holds docId (items.map view) := by
  induction items using List.reverseRecOn with
  | nil => rfl
  | append_singleton items item ih =>
    have hlast : (keptApart (fun item => holds (view item)) (fun item => docId (view item))
        items).getLast?.map (fun item => docId (view item)) =
          (keptApart holds docId (items.map view)).getLast?.map docId := by
      rw [← ih, List.getLast?_map, Option.map_map]
      rfl
    rw [List.map_append, List.map_singleton, keptApart_concat, keptApart_concat, keepApart, keepApart,
      hlast]
    split_ifs
    · rw [List.map_append, ih, List.map_singleton]
    · exact ih

/-- Items that are kept are wanted items. -/
theorem mem_keptApart {items : List α} {item : α} (h : item ∈ keptApart holds docId items) :
    item ∈ items ∧ holds item := by
  induction items using List.reverseRecOn with
  | nil => exact absurd h List.not_mem_nil
  | append_singleton items last ih =>
    rw [keptApart_concat, keepApart] at h
    split_ifs at h with hposted
    · obtain h | h := List.mem_append.mp h
      · exact ⟨List.mem_append_left _ (ih h).1, (ih h).2⟩
      · rw [List.mem_singleton.mp h]
        exact ⟨List.mem_append_right _ List.mem_cons_self, hposted.1⟩
    · exact ⟨List.mem_append_left _ (ih h).1, (ih h).2⟩

/-- When the ids of the wanted items are apart, all of them are kept. -/
theorem keptApart_of_isChain {items : List α}
    (h : ((items.filter fun item => holds item).map docId).IsChain (· ≠ ·)) :
    keptApart holds docId items = items.filter fun item => holds item := by
  induction items using List.reverseRecOn with
  | nil => rfl
  | append_singleton items item ih =>
    rw [List.filter_append, List.map_append] at h
    have hapart := (List.isChain_append.mp h).1
    rw [keptApart_concat, keepApart, ih hapart, List.filter_append]
    by_cases hwanted : holds item
    · rw [List.filter_cons_of_pos (by simpa using hwanted), List.isChain_append] at h
      have hother : (items.filter fun item => holds item).getLast?.map docId ≠ some (docId item) := by
        intro heq
        rw [← List.getLast?_map] at heq
        exact h.2.2 _ heq (docId item) rfl rfl
      rw [if_pos ⟨hwanted, hother⟩, List.filter_cons_of_pos (by simpa using hwanted)]
      rfl
    · rw [if_neg fun hboth => hwanted hboth.1, List.filter_cons_of_neg (by simpa using hwanted),
        List.filter_nil, List.append_nil]

end KeepApart

/-- The documents of which the index keeps a posting of the term. -/
def keptDocuments (termId : UInt32) (stored : List StoredDocument) : List StoredDocument :=
  keptApart (fun entry : StoredDocument => entry.doc.PostedUnder termId) StoredDocument.docId stored

/-- The occurrences of a document with the id of the newest posting lead nowhere else. -/
theorem map_address_addOccurrences_same {postings : List InvertedPosting} {docId : UInt32}
    (hsame : postings.getLast?.map InvertedPosting.docId = some docId) (location : ℕ × ℕ)
    (positions : List UInt32) :
    (addOccurrences docId location postings positions).map InvertedPosting.address =
      postings.map InvertedPosting.address := by
  induction positions generalizing postings with
  | nil => rfl
  | cons position positions ih =>
    obtain ⟨last, hlast, hdoc⟩ := Option.map_eq_some_iff.mp hsame
    have hsplit := List.dropLast_append_getLast? last hlast
    have hmerged : appendPosting postings ⟨docId, location.1, location.2, [position]⟩ =
        postings.dropLast ++ [last.merge ⟨docId, location.1, location.2, [position]⟩] := by
      rw [appendPosting, hlast]
      exact if_pos hdoc
    have hrest := @ih (appendPosting postings ⟨docId, location.1, location.2, [position]⟩) (by
      rw [hmerged, List.getLast?_concat, Option.map_some, InvertedPosting.merge, hdoc])
    refine hrest.trans ?_
    rw [hmerged, List.map_append]
    conv_rhs => rw [← hsplit, List.map_append]
    rfl

/-- The postings lead to the documents that are kept. -/
theorem map_address_indexPostings (termId : UInt32) (stored : List StoredDocument) :
    (indexPostings termId stored).map InvertedPosting.address =
      (keptDocuments termId stored).map StoredDocument.address := by
  induction stored using List.reverseRecOn with
  | nil => rfl
  | append_singleton stored entry ih =>
    have hstep : indexPostings termId (stored ++ [entry]) = addOccurrences entry.docId entry.location
        (indexPostings termId stored) (entry.doc.postedPositions termId) := by
      rw [indexPostings, List.foldl_append]
      rfl
    have hlast : (indexPostings termId stored).getLast?.map InvertedPosting.docId =
        (keptDocuments termId stored).getLast?.map StoredDocument.docId := by
      have hgetLast := congrArg (fun addresses => addresses.getLast?.map Prod.fst) ih
      simp only [List.getLast?_map, Option.map_map] at hgetLast
      exact hgetLast
    rw [keptDocuments] at hlast
    rw [hstep, keptDocuments, keptApart_concat, keepApart, ← hlast]
    by_cases hposted : entry.doc.PostedUnder termId
    swap
    · rw [(entry.doc.postedPositions_eq_nil termId).mpr hposted, if_neg fun h => hposted h.1]
      exact ih
    by_cases hsame : (indexPostings termId stored).getLast?.map InvertedPosting.docId = some entry.docId
    · rw [if_neg fun h => h.2 hsame, map_address_addOccurrences_same hsame]
      exact ih
    · have hsome : entry.doc.postedPositions termId ≠ [] :=
        fun hnil => (entry.doc.postedPositions_eq_nil termId).mp hnil hposted
      have hnew : ∀ last ∈ (indexPostings termId stored).getLast?, last.docId ≠ entry.docId := by
        intro last hmem heq
        exact hsame (by rw [hmem, Option.map_some, heq])
      rw [if_pos ⟨hposted, hsame⟩, addOccurrences_new hnew, postingAt, if_neg hsome, List.map_append,
        List.map_append, ih]
      rfl

/-! ## The records of a shard -/

namespace Indexed

variable {view : ShardView} {docs : List Document}

/-- The records and the locations of the inserted documents. -/
theorem stored_eq (h : Indexed view docs) :
    view.data.chronological = (storedDocuments docs view.data.locations).map StoredDocument.record ∧
      view.data.locations = (storedDocuments docs view.data.locations).map StoredDocument.location := by
  have hlength : docs.zipIdx.length = view.data.locations.length := by
    rw [List.length_zipIdx, h.length_locations]
  have hstored : storedDocuments docs view.data.locations =
      (docs.zipIdx.zip view.data.locations).map fun place =>
        ⟨place.1.1, UInt32.ofNat place.1.2, place.2⟩ := by
    rw [storedDocuments, ← List.map_uncurry_zip_eq_zipWith]
    rfl
  rw [hstored, List.map_map, List.map_map]
  constructor
  · rw [h.records]
    conv_lhs => rw [← List.map_fst_zip hlength.le, List.map_map]
    rfl
  · exact (List.map_snd_zip hlength.ge).symm

/-- The record of an inserted document is at its location. -/
theorem itemsAt_location (h : Indexed view docs) (hvalid : view.Valid) {entry : StoredDocument}
    (hentry : entry ∈ storedDocuments docs view.data.locations) :
    (view.data.itemsAt entry.location.1)[entry.location.2]? = some entry.record := by
  have hnodup : view.data.ids.Nodup := hvalid.dataDescending.imp fun hgt => ne_of_gt hgt
  have hmem : (entry.location, entry.record) ∈ view.data.locations.zip view.data.chronological := by
    obtain ⟨hrecords, hlocations⟩ := h.stored_eq
    rw [hrecords]
    conv => enter [1, 1]; rw [hlocations]
    rw [List.zip_map']
    exact List.mem_map_of_mem hentry
  obtain ⟨page, hpage, hitem⟩ := PageChain.exists_page_of_mem_zip hmem
  rwa [PageChain.itemsAt_of_mem hnodup hpage]

/-- The records that the postings of a term address, in the order of the insertions. -/
theorem recordOf_postings (h : Indexed view docs) (hvalid : view.Valid) (termId : UInt32) :
    (view.postings termId).chronological.map view.recordOf =
      (keptDocuments termId (storedDocuments docs view.data.locations)).map
        fun entry => some entry.record := by
  have haddress := map_address_indexPostings termId (storedDocuments docs view.data.locations)
  rw [← h.postings] at haddress
  have hlookup := congrArg (List.map fun address : UInt32 × ℕ × ℕ =>
    (view.data.itemsAt address.2.1)[address.2.2]?) haddress
  rw [List.map_map, List.map_map] at hlookup
  refine hlookup.trans (List.map_congr_left fun entry hentry => ?_)
  exact h.itemsAt_location hvalid (mem_keptApart _ _ hentry).1

/-- Every posting addresses a record. -/
theorem addressed (h : Indexed view docs) (hvalid : view.Valid) : view.Addressed := by
  intro termId posting hposting
  have hmem := List.mem_map_of_mem (f := view.recordOf)
    ((PageChain.perm_contents _).mem_iff.mp hposting)
  rw [h.recordOf_postings hvalid] at hmem
  obtain ⟨entry, -, hentry⟩ := List.mem_map.mp hmem
  rw [← hentry]
  rfl

/-- The records that the postings of a term address, as a search finds them. -/
theorem perm_filterMap_recordOf (h : Indexed view docs) (hvalid : view.Valid) (termId : UInt32) :
    ((view.postings termId).contents.filterMap view.recordOf).Perm
      ((keptDocuments termId (storedDocuments docs view.data.locations)).map StoredDocument.record) := by
  have hmap := congrArg (List.filterMap id) (h.recordOf_postings hvalid termId)
  rw [List.filterMap_map, List.filterMap_map] at hmap
  have hsome : (keptDocuments termId (storedDocuments docs view.data.locations)).filterMap
      (id ∘ fun entry => some entry.record) =
        (keptDocuments termId (storedDocuments docs view.data.locations)).map StoredDocument.record :=
    congrFun List.filterMap_eq_map' _
  rw [← hsome, ← hmap]
  exact (PageChain.perm_contents _).filterMap _

end Indexed

end FtsUring
