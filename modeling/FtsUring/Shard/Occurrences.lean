import FtsUring.Shard.Updates

/-!
# What the inverted index records

Every inserted document has one posting for each of its terms, and one for term 0. The postings of
one document are added one occurrence at a time, and merged into the newest posting of the term
while that has the same document id. As document ids are given out in a circle, two documents that
follow each other among those with a term can have the same id; unless that happens, the postings of
the term are those of the documents that contain it, in the order of the insertions.
-/

namespace FtsUring

open Foundation

/-- The documents that a sequence of calls inserts. -/
def insertedDocuments (updates : List ShardUpdate) : List Document :=
  updates.filterMap fun update =>
    match update with
    | .insert doc => some doc
    | .delete _ => none

/-- The positions at which a term occurs in a list of terms that starts at a position. -/
def termPositions (termId : UInt32) : ℕ → List UInt32 → List UInt32
  | _, [] => []
  | position, other :: rest =>
    if other = termId then UInt32.ofNat position :: termPositions termId (position + 1) rest
    else termPositions termId (position + 1) rest

namespace Document

/-- An insertion posts the document under the term. -/
def PostedUnder (doc : Document) (termId : UInt32) : Prop := termId = 0 ∨ termId ∈ doc.termIds

instance (doc : Document) (termId : UInt32) : Decidable (doc.PostedUnder termId) :=
  inferInstanceAs (Decidable (_ ∨ _))

/-- The positions that an insertion adds under a term: those at which the term occurs, and for term
0 one more. -/
def postedPositions (doc : Document) (termId : UInt32) : List UInt32 :=
  termPositions termId 0 doc.termIds ++ if termId = 0 then [0] else []

/-- A term has no positions exactly when it does not occur. -/
theorem termPositions_eq_nil (termId : UInt32) (position : ℕ) (termIds : List UInt32) :
    termPositions termId position termIds = [] ↔ termId ∉ termIds := by
  induction termIds generalizing position with
  | nil => simp [termPositions]
  | cons other rest ih =>
    rw [termPositions, List.mem_cons, not_or]
    by_cases hsame : other = termId
    · simp [hsame]
    · rw [if_neg hsame, ih]
      exact (and_iff_right fun heq => hsame heq.symm).symm

/-- The documents that are posted under a term are those with positions. -/
theorem postedPositions_eq_nil (doc : Document) (termId : UInt32) :
    doc.postedPositions termId = [] ↔ ¬doc.PostedUnder termId := by
  rw [postedPositions, PostedUnder, List.append_eq_nil_iff, termPositions_eq_nil, not_or]
  by_cases hzero : termId = 0
  · simp [hzero]
  · simp [hzero]

end Document

/-! ## The postings of one term -/

/-- Add a posting behind the newest one, or merge it into that. -/
def appendPosting (postings : List InvertedPosting) (posting : InvertedPosting) :
    List InvertedPosting :=
  match postings.getLast? with
  | some last =>
    if last.docId = posting.docId then postings.dropLast ++ [last.merge posting]
    else postings ++ [posting]
  | none => postings ++ [posting]

/-- Add the occurrences of one document. -/
def addOccurrences (docId : UInt32) (location : ℕ × ℕ) (postings : List InvertedPosting)
    (positions : List UInt32) : List InvertedPosting :=
  positions.foldl (fun postings position =>
    appendPosting postings ⟨docId, location.1, location.2, [position]⟩) postings

/-- The posting of a document under a term, if there is one, given its positions. -/
def postingAt (docId : UInt32) (location : ℕ × ℕ) (positions : List UInt32) : List InvertedPosting :=
  if positions = [] then []
  else [⟨docId, location.1, location.2, positions.take maxPositionsPerPosting⟩]

/-- Adding another position of a document to a term. -/
theorem appendPosting_postingAt {postings : List InvertedPosting} {docId : UInt32}
    (hnew : ∀ last ∈ postings.getLast?, last.docId ≠ docId) (location : ℕ × ℕ)
    (positions : List UInt32) (position : UInt32) :
    appendPosting (postings ++ postingAt docId location positions)
        ⟨docId, location.1, location.2, [position]⟩ =
      postings ++ postingAt docId location (positions ++ [position]) := by
  have hone : [position].take maxPositionsPerPosting = [position] := rfl
  rw [postingAt, postingAt, if_neg (List.append_ne_nil_of_right_ne_nil _ (List.cons_ne_nil _ _))]
  split_ifs with hempty
  · rw [hempty, List.append_nil, List.nil_append, hone, appendPosting]
    cases hlast : postings.getLast? with
    | none => rfl
    | some last => exact if_neg (hnew last hlast)
  · rw [appendPosting, List.getLast?_concat]
    dsimp only
    rw [if_pos rfl, List.dropLast_concat, InvertedPosting.merge]
    dsimp only
    have hroom : maxPositionsPerPosting - min maxPositionsPerPosting positions.length =
        maxPositionsPerPosting - positions.length := by omega
    rw [List.take_append, List.take_take, min_self, List.take_append, List.length_take, hroom]

/-- The occurrences of a document with another id than the newest posting make one posting. -/
theorem addOccurrences_new {postings : List InvertedPosting} {docId : UInt32}
    (hnew : ∀ last ∈ postings.getLast?, last.docId ≠ docId) (location : ℕ × ℕ)
    (positions : List UInt32) :
    addOccurrences docId location postings positions = postings ++ postingAt docId location positions := by
  induction positions using List.reverseRecOn with
  | nil => exact (List.append_nil _).symm
  | append_singleton positions position ih =>
    rw [addOccurrences] at ih ⊢
    rw [List.foldl_append, ih]
    exact appendPosting_postingAt hnew location positions position

/-- The occurrences of a document with the id of the newest posting make none. -/
theorem addOccurrences_same {postings : List InvertedPosting} {docId : UInt32}
    (hsame : postings.getLast?.map InvertedPosting.docId = some docId) (location : ℕ × ℕ)
    (positions : List UInt32) :
    (addOccurrences docId location postings positions).length = postings.length ∧
      (addOccurrences docId location postings positions).getLast?.map InvertedPosting.docId =
        some docId := by
  induction positions generalizing postings with
  | nil => exact ⟨rfl, hsame⟩
  | cons position positions ih =>
    obtain ⟨last, hlast, hdoc⟩ := Option.map_eq_some_iff.mp hsame
    have hne : postings ≠ [] := fun hnil => by simp [hnil] at hlast
    have hmerged : appendPosting postings ⟨docId, location.1, location.2, [position]⟩ =
        postings.dropLast ++ [last.merge ⟨docId, location.1, location.2, [position]⟩] := by
      rw [appendPosting, hlast]
      exact if_pos hdoc
    obtain ⟨hlength, hnewest⟩ := @ih
      (appendPosting postings ⟨docId, location.1, location.2, [position]⟩) (by
        rw [hmerged, List.getLast?_concat, Option.map_some, InvertedPosting.merge, hdoc])
    refine ⟨hlength.trans ?_, hnewest⟩
    rw [hmerged, List.length_append, List.length_dropLast, List.length_singleton]
    exact Nat.sub_add_cancel (List.length_pos_iff.mpr hne)

/-! ## All documents -/

/-- An inserted document, with its id and the page and slot of its record. -/
structure StoredDocument where
  doc : Document
  docId : UInt32
  location : ℕ × ℕ

/-- The documents that were inserted into a new shard, given where their records are. -/
def storedDocuments (docs : List Document) (locations : List (ℕ × ℕ)) : List StoredDocument :=
  List.zipWith (fun entry location => ⟨entry.1, UInt32.ofNat entry.2, location⟩) docs.zipIdx locations

/-- One document more. -/
theorem storedDocuments_append {docs : List Document} {locations : List (ℕ × ℕ)}
    (hlength : docs.length = locations.length) (doc : Document) (location : ℕ × ℕ) :
    storedDocuments (docs ++ [doc]) (locations ++ [location]) =
      storedDocuments docs locations ++ [⟨doc, UInt32.ofNat docs.length, location⟩] := by
  have hzip : docs.zipIdx.length = locations.length := by rw [List.length_zipIdx, hlength]
  rw [storedDocuments, List.zipIdx_append, List.zipWith_append hzip, storedDocuments]
  simp

/-- The postings of a term that the insertions leave. -/
def indexPostings (termId : UInt32) (stored : List StoredDocument) : List InvertedPosting :=
  stored.foldl (fun postings entry =>
    addOccurrences entry.docId entry.location postings (entry.doc.postedPositions termId)) []

/-- One posting for each document with the term. -/
def recordedPostings (termId : UInt32) (stored : List StoredDocument) : List InvertedPosting :=
  stored.flatMap fun entry =>
    postingAt entry.docId entry.location (entry.doc.postedPositions termId)

/-- The ids of the documents with a term. -/
def holderIds (termId : UInt32) (stored : List StoredDocument) : List UInt32 :=
  (stored.filter fun entry => entry.doc.PostedUnder termId).map StoredDocument.docId

/-- The documents of a term that follow each other have different ids. -/
def IdsApart (termId : UInt32) (stored : List StoredDocument) : Prop :=
  (holderIds termId stored).IsChain (· ≠ ·)

/-- The ids with one document more. -/
theorem holderIds_append (termId : UInt32) (stored : List StoredDocument) (entry : StoredDocument) :
    holderIds termId (stored ++ [entry]) =
      holderIds termId stored ++ if entry.doc.PostedUnder termId then [entry.docId] else [] := by
  rw [holderIds, List.filter_append, List.map_append, holderIds]
  by_cases hposted : entry.doc.PostedUnder termId
  · rw [List.filter_cons_of_pos (by simpa using hposted), if_pos hposted]
    rfl
  · rw [List.filter_cons_of_neg (by simpa using hposted), if_neg hposted]
    rfl

/-- The newest posting belongs to the last document with the term, and there is one posting for
each of them exactly when the ids are apart. -/
theorem indexPostings_spec (termId : UInt32) (stored : List StoredDocument) :
    (indexPostings termId stored).getLast?.map InvertedPosting.docId =
        (holderIds termId stored).getLast? ∧
      (indexPostings termId stored).length ≤ (holderIds termId stored).length ∧
      ((indexPostings termId stored).length = (holderIds termId stored).length ↔
        IdsApart termId stored) ∧
      (IdsApart termId stored → indexPostings termId stored = recordedPostings termId stored) := by
  induction stored using List.reverseRecOn with
  | nil => simp [indexPostings, holderIds, IdsApart, recordedPostings]
  | append_singleton stored entry ih =>
    obtain ⟨hlast, hle, hcount, hrecorded⟩ := ih
    have hstep : indexPostings termId (stored ++ [entry]) = addOccurrences entry.docId entry.location
        (indexPostings termId stored) (entry.doc.postedPositions termId) := by
      rw [indexPostings, List.foldl_append]
      rfl
    have hrecord : recordedPostings termId (stored ++ [entry]) = recordedPostings termId stored ++
        postingAt entry.docId entry.location (entry.doc.postedPositions termId) := by
      rw [recordedPostings, List.flatMap_append, List.flatMap_singleton, recordedPostings]
    rw [hstep, hrecord, IdsApart, holderIds_append]
    by_cases hposted : entry.doc.PostedUnder termId
    swap
    · have hnone := (entry.doc.postedPositions_eq_nil termId).mpr hposted
      rw [if_neg hposted, List.append_nil, hnone]
      refine ⟨hlast, hle, hcount, fun h => ?_⟩
      rw [addOccurrences, List.foldl_nil, postingAt, if_pos rfl, List.append_nil]
      exact hrecorded h
    have hsome : entry.doc.postedPositions termId ≠ [] :=
      fun hnil => (entry.doc.postedPositions_eq_nil termId).mp hnil hposted
    have hchain : ((holderIds termId stored) ++ [entry.docId]).IsChain (· ≠ ·) ↔
        IdsApart termId stored ∧ ∀ last ∈ (holderIds termId stored).getLast?, last ≠ entry.docId := by
      rw [List.isChain_append, IdsApart]
      simp
    rw [if_pos hposted, hchain, List.getLast?_concat, List.length_append, List.length_singleton]
    by_cases hsame : (holderIds termId stored).getLast? = some entry.docId
    · obtain ⟨hlength, hnewest⟩ := addOccurrences_same (hlast.trans hsame) entry.location
        (entry.doc.postedPositions termId)
      refine ⟨hnewest, by omega, ?_, fun h => absurd rfl (h.2 _ hsame)⟩
      exact ⟨fun h => absurd h (by omega), fun h => absurd rfl (h.2 _ hsame)⟩
    · have hnew : ∀ last ∈ (indexPostings termId stored).getLast?, last.docId ≠ entry.docId := by
        intro last hmem heq
        rw [hmem, Option.map_some, heq] at hlast
        exact hsame hlast.symm
      have hother : ∀ last ∈ (holderIds termId stored).getLast?, last ≠ entry.docId :=
        fun last hmem heq => hsame (heq ▸ hmem)
      rw [addOccurrences_new hnew, postingAt, if_neg hsome, List.getLast?_concat, List.length_append,
        List.length_singleton]
      refine ⟨rfl, by omega, ?_, fun h => by rw [hrecorded h.1]⟩
      rw [Nat.add_right_cancel_iff, hcount]
      exact (and_iff_left hother).symm

namespace ShardView

/-- The postings of all terms after one was added. -/
theorem Valid.chronological_addPosting {view : ShardView} (h : view.Valid) (termId : UInt32)
    (posting : InvertedPosting) (other : UInt32) :
    ((view.addPosting termId posting).postings other).chronological =
      if other = termId then appendPosting (view.postings termId).chronological posting
      else (view.postings other).chronological := by
  have hset : ∀ chain : PostingPages, ((view.setPostings termId chain).postings other).chronological =
      if other = termId then chain.chronological else (view.postings other).chronological := by
    intro chain
    rw [postings_setPostings]
    split_ifs <;> rfl
  have hnewest := PageChain.newest?_eq (h.packed termId)
  have hpush := PageChain.chronological_push maxPostingsPerPage view.nextPageId posting
    (view.postings termId)
  rw [appendPosting, ← hnewest, ← hpush, ShardView.addPosting]
  dsimp only
  cases hlast : (view.postings termId).newest? with
  | none => exact hset _
  | some last =>
    dsimp only
    by_cases hdoc : last.docId = posting.docId
    · have hne : view.postings termId ≠ [] := by
        intro hnil
        rw [hnil] at hlast
        exact absurd hlast (Option.some_ne_none last).symm
      rw [if_pos hdoc, if_pos hdoc, hset, PageChain.chronological_replaceNewest _ (h.packed termId) hne]
    · rw [if_neg hdoc, if_neg hdoc]
      split_ifs with hneeds hsame
      · exact (hset _).trans (if_pos hsame)
      · exact (hset _).trans (if_neg hsame)
      · exact (hset _).trans (if_pos (by assumption))
      · exact (hset _).trans (if_neg (by assumption))

/-- The postings of a term after the occurrences of a document were added. -/
theorem Valid.chronological_addPostings {view : ShardView} (h : view.Valid) {docId : UInt32}
    (location : ℕ × ℕ) {position : ℕ} {termIds : List UInt32}
    (hfits : (view.addPostings docId location.1 location.2 position termIds).nextPageId ≤ invalidPageId)
    (termId : UInt32) :
    ((view.addPostings docId location.1 location.2 position termIds).postings termId).chronological =
      addOccurrences docId location (view.postings termId).chronological
        (termPositions termId position termIds) := by
  induction termIds generalizing view position with
  | nil => rfl
  | cons first rest ih =>
    have hstep := nextPageId_le_addPostings
      (view.addPosting first ⟨docId, location.1, location.2, [UInt32.ofNat position]⟩) docId
      location.1 location.2 (position + 1) rest
    have hvalid := h.addPosting first _ (hstep.trans hfits)
    rw [ShardView.addPostings, termPositions, ih hvalid hfits, h.chronological_addPosting]
    by_cases hsame : first = termId
    · rw [if_pos hsame.symm, if_pos hsame, hsame]
      rfl
    · rw [if_neg fun heq => hsame heq.symm, if_neg hsame]

/-- The postings of a term after an insertion. -/
theorem Valid.chronological_insertDocument {view : ShardView} (h : view.Valid) (doc : Document)
    (hfits : (view.insertDocument doc).nextPageId ≤ invalidPageId) (termId : UInt32) :
    ((view.insertDocument doc).postings termId).chronological =
      addOccurrences view.nextDocId (view.insertDocument doc).data.newestLocation
        (view.postings termId).chronological (doc.postedPositions termId) := by
  rw [view.data_insertDocument doc]
  rw [ShardView.insertDocument] at hfits ⊢
  set stored := view.storeRecord (doc.record view.nextDocId) with hstored
  have hlocation : (view.data.push dataPageCapacity view.nextPageId
      (doc.record view.nextDocId)).newestLocation = (stored.activePage, stored.newestSlot) := rfl
  rw [hlocation]
  have hindexed := (nextPageId_le_addPosting _ _ _).trans hfits
  have hfirst := (nextPageId_le_addPostings _ _ _ _ _ _).trans hindexed
  have hvalid := h.storeRecord _ hfirst
  have hterms := hvalid.chronological_addPostings (stored.activePage, stored.newestSlot) hindexed termId
  have hlast := (hvalid.addPostings _ _ _ _ _ hindexed).chronological_addPosting 0
    ⟨view.nextDocId, stored.activePage, stored.newestSlot, [0]⟩ termId
  rw [hlast, Document.postedPositions, addOccurrences, List.foldl_append, ← addOccurrences]
  by_cases hzero : termId = 0
  · subst hzero
    rw [if_pos rfl, if_pos rfl, hterms]
    rfl
  · rw [if_neg hzero, if_neg hzero, hterms]
    rfl

end ShardView

/-! ## All postings -/

/-- The content of a shard after documents were inserted into a new one. -/
structure Indexed (view : ShardView) (docs : List Document) : Prop where
  nextDocId : view.nextDocId = UInt32.ofNat docs.length
  records : view.data.chronological =
    docs.zipIdx.map fun entry => entry.1.record (UInt32.ofNat entry.2)
  postings : ∀ termId, (view.postings termId).chronological =
    indexPostings termId (storedDocuments docs view.data.locations)

namespace Indexed

/-- A new shard. -/
theorem fresh : Indexed ShardView.fresh [] := ⟨rfl, rfl, fun _ => rfl⟩

/-- Every document has a location. -/
theorem length_locations {view : ShardView} {docs : List Document} (h : Indexed view docs) :
    docs.length = view.data.locations.length := by
  rw [PageChain.length_locations, h.records, List.length_map, List.length_zipIdx]

/-- One insertion. -/
theorem insertDocument {view : ShardView} {docs : List Document} (h : Indexed view docs)
    (hvalid : view.Valid) (doc : Document)
    (hfits : (view.insertDocument doc).nextPageId ≤ invalidPageId) :
    Indexed (view.insertDocument doc) (docs ++ [doc]) := by
  refine ⟨?_, ?_, fun termId => ?_⟩
  · rw [ShardView.nextDocId_insertDocument, h.nextDocId, List.length_append, List.length_singleton,
      UInt32.ofNat_add]
    rfl
  · rw [ShardView.data_insertDocument, PageChain.chronological_push, h.records, List.zipIdx_append,
      List.map_append, h.nextDocId]
    simp
  · have hlocations : (view.insertDocument doc).data.locations =
        view.data.locations ++ [(view.insertDocument doc).data.newestLocation] := by
      rw [ShardView.data_insertDocument, PageChain.locations_push]
    rw [hvalid.chronological_insertDocument doc hfits termId, hlocations,
      storedDocuments_append h.length_locations, h.postings, h.nextDocId]
    rw [indexPostings, indexPostings, List.foldl_append]
    rfl

/-- Deletions are not recorded. -/
theorem deleteDocument {view : ShardView} {docs : List Document} (h : Indexed view docs)
    (docId : UInt32) : Indexed (view.deleteDocument docId) docs :=
  ⟨h.nextDocId, h.records, h.postings⟩

/-- A sequence of calls. -/
theorem updates {view : ShardView} {docs : List Document} (h : Indexed view docs)
    (hvalid : view.Valid) {updates : List ShardUpdate}
    (hfits : (view.updates updates).nextPageId ≤ invalidPageId) :
    Indexed (view.updates updates) (docs ++ insertedDocuments updates) := by
  induction updates generalizing view docs with
  | nil => rwa [insertedDocuments, List.filterMap_nil, List.append_nil]
  | cons update updates ih =>
    have hnow := (ShardView.nextPageId_le_updates (view.update update) updates).trans hfits
    cases update with
    | insert doc =>
      have hlater := ih (h.insertDocument hvalid doc hnow) (hvalid.update _ hnow) hfits
      rwa [List.append_assoc, List.singleton_append] at hlater
    | delete docId => exact ih (h.deleteDocument docId) (hvalid.update _ hnow) hfits

end Indexed

end FtsUring
