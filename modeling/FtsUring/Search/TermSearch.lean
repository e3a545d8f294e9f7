import FtsUring.Search.Found
import FtsUring.Shard.Deletion

/-!
# The search of a term

After insertions and deletions on a new shard, the indexed search of a term selects the best results
among the documents that the index keeps and the tombstone page does not mark. These are the live
documents with the term unless a deletion marks another document, or none, or two documents that follow
each other under the term have the same id.
-/

namespace FtsUring

open Foundation

/-- An inserted document with its id. -/
abbrev NumberedDocument : Type := Document × UInt32

/-- The documents that were inserted into a new shard. -/
def numberedDocuments (docs : List Document) : List NumberedDocument :=
  docs.zipIdx.map fun entry => (entry.1, UInt32.ofNat entry.2)

/-- The documents that were inserted and not deleted. -/
def liveDocuments (updates : List ShardUpdate) : List NumberedDocument :=
  (numberedDocuments (insertedDocuments updates)).filter fun entry => entry.2 ∉ deletedIds updates

/-- The documents that were inserted and that the tombstone page does not mark. -/
def unmarkedDocuments (updates : List ShardUpdate) (entries : List NumberedDocument) :
    List NumberedDocument :=
  entries.filter fun entry => ¬∃ deleted ∈ deletedIds updates, SharesTombstone deleted entry.2

/-- The documents of which the index keeps a posting of the term. -/
def indexedDocuments (termId : UInt32) (updates : List ShardUpdate) : List NumberedDocument :=
  keptApart (fun entry : NumberedDocument => entry.1.PostedUnder termId) Prod.snd
    (numberedDocuments (insertedDocuments updates))

variable {F : Type} [Double F]

/-- The results for documents. -/
def Ranking.resultsOf (ranking : Ranking F) (entries : List NumberedDocument) :
    List (UnifiedSearchResult F) :=
  entries.filterMap fun entry => ranking.resultOf (entry.1.record entry.2)

/-- The results for some of the documents are results for all. -/
theorem Ranking.resultsOf_subset (ranking : Ranking F) {entries others : List NumberedDocument}
    (hsub : entries ⊆ others) : ranking.resultsOf entries ⊆ ranking.resultsOf others := by
  intro result hresult
  obtain ⟨entry, hentry, hsome⟩ := List.mem_filterMap.mp hresult
  exact List.mem_filterMap.mpr ⟨entry, hsub hentry, hsome⟩

/-- The results of a text search have positive scores. -/
theorem textRanking_resultsOf_positive (params : Bm25fParams F) {entries : List NumberedDocument} :
    ∀ result ∈ (textRanking params).resultsOf entries, 0 < result.bm25fScore := by
  intro result hresult
  obtain ⟨entry, -, hentry⟩ := List.mem_filterMap.mp hresult
  rw [Ranking.resultOf] at hentry
  split_ifs at hentry with hadmits
  · rw [Option.some.injEq] at hentry
    subst hentry
    exact of_decide_eq_true hadmits

/-- A vector search has a result for every document. -/
theorem map_nodeId_vectorResults (queryVec : Vector UInt32 embeddingDim)
    (entries : List NumberedDocument) :
    (((vectorRanking queryVec : Ranking F).resultsOf entries).map UnifiedSearchResult.nodeId) =
      entries.map fun entry => entry.1.nodeId := by
  induction entries with
  | nil => rfl
  | cons entry entries ih =>
    have hone : (vectorRanking queryVec : Ranking F).resultsOf (entry :: entries) =
        vectorResult entry.1.nodeId
          ((vectorRanking queryVec : Ranking F).score (entry.1.record entry.2)) ::
            (vectorRanking queryVec : Ranking F).resultsOf entries := rfl
    rw [hone, List.map_cons, List.map_cons, ih]
    rfl

/-- The stored documents are the inserted ones. -/
theorem map_storedDocuments {docs : List Document} {locations : List (ℕ × ℕ)}
    (hlength : docs.length = locations.length) :
    (storedDocuments docs locations).map (fun entry => (entry.doc, entry.docId)) =
      numberedDocuments docs := by
  have hzip : docs.zipIdx.length ≤ locations.length := by rw [List.length_zipIdx, hlength]
  rw [storedDocuments, ← List.map_uncurry_zip_eq_zipWith, List.map_map, numberedDocuments]
  conv_rhs => rw [← List.map_fst_zip hzip, List.map_map]
  rfl

/-- The documents of a new shard have different ids from one to the next. -/
theorem isChain_numberedDocuments (docs : List Document) :
    ((numberedDocuments docs).map Prod.snd).IsChain (· ≠ ·) := by
  have hfrom : ∀ first, ((docs.zipIdx first).map fun entry => UInt32.ofNat entry.2).IsChain (· ≠ ·) := by
    induction docs with
    | nil => exact fun _ => List.isChain_nil
    | cons doc docs ih =>
      intro first
      rw [List.zipIdx_cons, List.map_cons, List.isChain_cons]
      refine ⟨fun next hnext => ?_, ih (first + 1)⟩
      cases docs with
      | nil => exact absurd hnext (by simp)
      | cons second docs =>
        rw [List.zipIdx_cons, List.map_cons, List.head?_cons, Option.mem_some_iff] at hnext
        rw [← hnext, ne_eq, UInt32.ofNat_eq_iff_mod_eq_toNat, UInt32.toNat_ofNat']
        omega
  rw [numberedDocuments, List.map_map]
  exact hfrom 0

/-- Every document is kept under term 0. -/
theorem indexedDocuments_zero (updates : List ShardUpdate) :
    indexedDocuments 0 updates = numberedDocuments (insertedDocuments updates) := by
  have hall : ((numberedDocuments (insertedDocuments updates)).filter fun entry =>
      decide (entry.1.PostedUnder 0)) = numberedDocuments (insertedDocuments updates) := by
    rw [List.filter_eq_self]
    exact fun entry _ => decide_eq_true (Or.inl rfl)
  have hkept := @keptApart_of_isChain NumberedDocument (fun entry => entry.1.PostedUnder 0) _ Prod.snd
    (numberedDocuments (insertedDocuments updates)) (by rw [hall]; exact isChain_numberedDocuments _)
  rw [indexedDocuments, hkept, hall]

/-- Documents of which every deleted one has a bit of its own. -/
theorem unmarkedDocuments_eq_live {updates : List ShardUpdate}
    (hown : HaveOwnTombstones (deletedIds updates)) :
    unmarkedDocuments updates (numberedDocuments (insertedDocuments updates)) = liveDocuments updates := by
  have hmarked := (haveOwnTombstones_iff (deletedIds updates)).mp hown
  rw [unmarkedDocuments, liveDocuments]
  apply List.filter_congr
  intro entry _
  exact decide_eq_decide.mpr (not_congr (hmarked entry.2))

/-! ## The searches of a shard -/

/-- What the searches of a shard answer after a sequence of calls. They leave the pages as they are. -/
structure Searched (F : Type) [Double F] (s : PageArray) (updates : List ShardUpdate) : Prop where
  /-- The scans look at all documents that are not marked. -/
  scan : ∀ (ranking : Ranking F) {maxResults : ℕ}, 0 < maxResults →
    arrayHandler.exec (searchPages ranking maxResults) s =
      some (exchangeSort ranking.key (offerAll ranking.key maxResults []
        (ranking.resultsOf (unmarkedDocuments updates
          (numberedDocuments (insertedDocuments updates))))), s)
  /-- The indexed search looks at the documents that are kept under the term and not marked. -/
  indexed : ∀ (termId : UInt32) (params : Bm25fParams F), ∃ items,
    ((indexedDocuments termId updates).length ≤ maxPossiblePostings →
      items.Perm ((textRanking params).resultsOf
        (unmarkedDocuments updates (indexedDocuments termId updates)))) ∧
    ∀ {maxResults : ℕ}, 0 < maxResults →
      arrayHandler.exec (shardSearchBm25fIndexed termId params maxResults) s =
        some (exchangeSort (textRanking params).key
          (offerAll (textRanking params).key maxResults [] items), s)

/-- The documents that are not marked. -/
theorem not_isDeleted_updates (updates : List ShardUpdate) (docId : UInt32) :
    (!(ShardView.fresh.updates updates).isDeleted docId) =
      decide (¬∃ deleted ∈ deletedIds updates, SharesTombstone deleted docId) := by
  rw [Bool.not_eq_eq_eq_not, Bool.eq_iff_iff, ShardView.isDeleted_updates,
    ShardView.isDeleted_fresh, or_iff_right Bool.false_ne_true]
  simp

/-- The results for the documents that are not marked. -/
theorem found_numbered (updates : List ShardUpdate) (ranking : Ranking F)
    (entries : List NumberedDocument) :
    (ShardView.fresh.updates updates).found ranking (entries.map fun entry => entry.1.record entry.2) =
      ranking.resultsOf (unmarkedDocuments updates entries) := by
  rw [ShardView.found, List.filter_map, List.filterMap_map, Ranking.resultsOf, unmarkedDocuments]
  have hfilter : ((fun rec : UnifiedDocRecord => !(ShardView.fresh.updates updates).isDeleted rec.docId) ∘
      fun entry : NumberedDocument => entry.1.record entry.2) = fun entry =>
        decide (¬∃ deleted ∈ deletedIds updates, SharesTombstone deleted entry.2) :=
    funext fun entry => not_isDeleted_updates updates entry.2
  rw [hfilter]
  rfl

/-- The searches after a sequence of calls on a new shard. -/
theorem ShardAt.searched {s : PageArray} {updates : List ShardUpdate}
    (h : ShardAt s (ShardView.fresh.updates updates))
    (hfits : (ShardView.fresh.updates updates).nextPageId < invalidPageId)
    (hshort : ∀ doc ∈ insertedDocuments updates, doc.NoRecordSlots) : Searched F s updates := by
  have hindexed := Indexed.fresh.updates ShardView.valid_fresh hfits.le
  rw [List.nil_append] at hindexed
  have hslots := ShardView.noRecordSlots_updates ShardView.valid_fresh ShardView.noRecordSlots_fresh
    hshort hfits.le
  have hnumbered := map_storedDocuments hindexed.length_locations
  set stored := storedDocuments (insertedDocuments updates)
    (ShardView.fresh.updates updates).data.locations with hstored
  have hrecord : ∀ entries : List StoredDocument, entries.map StoredDocument.record =
      (entries.map fun entry => (entry.doc, entry.docId)).map fun entry => entry.1.record entry.2 := by
    intro entries
    rw [List.map_map]
    rfl
  constructor
  · intro ranking maxResults hmax
    rw [h.exec_searchPages hslots hfits ranking hmax, hindexed.stored_eq.1, hrecord, hnumbered,
      found_numbered]
  · intro termId params
    refine ⟨_, ?_, fun hmax =>
      h.exec_searchIndexed (hindexed.addressed h.valid) termId params fun _ => hmax⟩
    intro hcount
    have hkept : (keptDocuments termId stored).map (fun entry => (entry.doc, entry.docId)) =
        indexedDocuments termId updates := by
      rw [indexedDocuments, ← hnumbered]
      exact @map_keptApart NumberedDocument StoredDocument (fun entry => entry.1.PostedUnder termId) _
        Prod.snd (fun entry => (entry.doc, entry.docId)) stored
    have hperm := hindexed.perm_filterMap_recordOf h.valid termId
    rw [← hstored, hrecord, hkept] at hperm
    have hall : ((ShardView.fresh.updates updates).postings termId).contents.length ≤
        maxPossiblePostings := by
      have haddress := congrArg List.length (map_address_indexPostings termId stored)
      rw [List.length_map, List.length_map, ← hindexed.postings] at haddress
      have hlength : (keptDocuments termId stored).length = (indexedDocuments termId updates).length := by
        rw [← hkept, List.length_map]
      rw [(PageChain.perm_contents _).length_eq, haddress, hlength]
      exact hcount
    rw [List.take_of_length_le hall, ← found_numbered]
    exact (hperm.filter _).filterMap _

/-! ## The index against the scan -/

/-- On a machine, after a sequence of calls on a new shard that all succeed, the indexed search of a
term selects the best results for the live documents with the term, and for term 0 it has the scores of
the scan. -/
def SearchesTermExactly (m : Machine) (updates : List ShardUpdate) (termId : UInt32)
    (params : Bm25fParams F) : Prop :=
  ∃ shard : Shard F, ∃ m', poolHandler.exec (runFreshShard updates) m =
      some (some (updates.map fun _ => true, shard), m') ∧
    ∀ maxResults, 0 < maxResults → ∃ results m'',
      poolHandler.exec (shardSearchBm25fIndexed termId params maxResults) m' = some (results, m'') ∧
        IsTopK UnifiedSearchResult.bm25fScore maxResults ((textRanking params).resultsOf
          ((liveDocuments updates).filter fun entry => entry.1.PostedUnder termId)) results ∧
        results.Pairwise (fun x y => ¬x.bm25fScore < y.bm25fScore) ∧
        (termId = 0 → ∃ scanned m''',
          poolHandler.exec (shardSearchBm25f termId params maxResults) m'' = some (scanned, m''') ∧
            scanned.map UnifiedSearchResult.bm25fScore = results.map UnifiedSearchResult.bm25fScore)

/-- The index keeps, and the tombstone page leaves unmarked, documents with the results of the live
documents with the term. -/
def FindsLiveDocuments (updates : List ShardUpdate) (termId : UInt32) (params : Bm25fParams F) : Prop :=
  ((textRanking params).resultsOf (unmarkedDocuments updates (indexedDocuments termId updates))).Perm
    ((textRanking params).resultsOf
      ((liveDocuments updates).filter fun entry => entry.1.PostedUnder termId))

/-- The live documents are found when every deleted document has a bit of its own, and the documents of
the term that follow each other have different ids. -/
theorem findsLiveDocuments_of_ownTombstones {updates : List ShardUpdate} {termId : UInt32}
    (hown : HaveOwnTombstones (deletedIds updates))
    (hapart : (((numberedDocuments (insertedDocuments updates)).filter fun entry =>
      entry.1.PostedUnder termId).map Prod.snd).IsChain (· ≠ ·)) (params : Bm25fParams F) :
    FindsLiveDocuments updates termId params := by
  have hmarked := (haveOwnTombstones_iff (deletedIds updates)).mp hown
  have hkept := @keptApart_of_isChain NumberedDocument (fun entry => entry.1.PostedUnder termId) _
    Prod.snd (numberedDocuments (insertedDocuments updates)) hapart
  have hsame : unmarkedDocuments updates (indexedDocuments termId updates) =
      (liveDocuments updates).filter fun entry => entry.1.PostedUnder termId := by
    rw [indexedDocuments, hkept, unmarkedDocuments, liveDocuments, List.filter_filter,
      List.filter_filter]
    apply List.filter_congr
    intro entry _
    rw [decide_eq_decide.mpr (not_congr (hmarked entry.2)), Bool.and_comm]
  rw [FindsLiveDocuments, hsame]

section Pools

variable {host : Host} {wal : WALManager} {diskFd : ℤ} {poolSize nextPageId : ℕ}
  {updates : List ShardUpdate} {termId : UInt32} {params : Bm25fParams F}

/-- What the calls leave, and what the searches afterwards answer. -/
theorem exec_runFreshShard_searched (hfree : host.FaultFree) (hempty : host.dataFile = [])
    (wal : WALManager) (hpool : UsablePool diskFd poolSize nextPageId)
    (hfits : (ShardView.fresh.updates updates).nextPageId < invalidPageId)
    (hshort : ∀ doc ∈ insertedDocuments updates, doc.NoRecordSlots) :
    ∃ shard : Shard F, ∃ m s, poolHandler.exec (runFreshShard updates)
        (newMachine diskFd wal host poolSize nextPageId) =
          some (some (updates.map fun _ => true, shard), m) ∧
      Represents m s ∧ Searched F s updates := by
  obtain ⟨s, hs, hrun⟩ := exec_runFreshShard (F := F) hfree hempty wal hfits.le
  obtain ⟨m, hexec, hm⟩ := hrun diskFd poolSize nextPageId hpool
  exact ⟨_, m, s, hexec, hm, hs.searched hfits hshort⟩

/-- When the search of a term is exact, it finds the live documents. -/
theorem SearchesTermExactly.findsLiveDocuments (hlinear : LinearOn fun score : F => 0 < score)
    (hfree : host.FaultFree) (hempty : host.dataFile = [])
    (hpool : UsablePool diskFd poolSize nextPageId)
    (hfits : (ShardView.fresh.updates updates).nextPageId < invalidPageId)
    (hshort : ∀ doc ∈ insertedDocuments updates, doc.NoRecordSlots)
    (hcount : (indexedDocuments termId updates).length ≤ maxPossiblePostings)
    (h : SearchesTermExactly (newMachine diskFd wal host poolSize nextPageId) updates termId params) :
    FindsLiveDocuments updates termId params := by
  obtain ⟨shard, m, s, hexec, hm, hs⟩ :=
    exec_runFreshShard_searched (F := F) hfree hempty wal hpool hfits hshort
  obtain ⟨shard', m', hexec', hall⟩ := h
  rw [hexec, Option.some.injEq, Prod.mk.injEq] at hexec'
  obtain ⟨-, rfl⟩ := hexec'
  obtain ⟨items, hitems, hsearch⟩ := hs.indexed termId params
  have hperm := hitems hcount
  set found := (textRanking params).resultsOf
    (unmarkedDocuments updates (indexedDocuments termId updates)) with hfound
  set live := (textRanking params).resultsOf
    ((liveDocuments updates).filter fun entry => entry.1.PostedUnder termId) with hlive
  -- a search with room for everything returns all of both
  obtain ⟨results, m'', hresults, htop, -⟩ := hall (found.length + live.length + 1) (Nat.succ_pos _)
  obtain ⟨m₁, hm₁, -⟩ := poolHandler_simulates.exec hm (hsearch (Nat.succ_pos (found.length + live.length)))
  rw [hm₁, Option.some.injEq, Prod.mk.injEq] at hresults
  obtain ⟨rfl, -⟩ := hresults
  have hnumbers : ∀ x ∈ items, 0 < x.bm25fScore := fun x hx =>
    textRanking_resultsOf_positive params x (hperm.mem_iff.mp hx)
  obtain ⟨hbest, -⟩ := isTopK_exchangeSort_offerAll hlinear (found.length + live.length + 1) hnumbers
  have hitemsRoom : items.length ≤ found.length + live.length + 1 := by
    rw [hperm.length_eq]
    omega
  have hliveRoom : live.length ≤ found.length + live.length + 1 := by omega
  exact hperm.symm.trans (hbest.perm_of_room htop hitemsRoom hliveRoom)

/-- The search of a term is exact when it finds the live documents. -/
theorem searchesTermExactly_iff (hlinear : LinearOn fun score : F => 0 < score)
    (hfree : host.FaultFree) (hempty : host.dataFile = []) (wal : WALManager)
    (hpool : UsablePool diskFd poolSize nextPageId)
    (hfits : (ShardView.fresh.updates updates).nextPageId < invalidPageId)
    (hterms : ∀ doc ∈ insertedDocuments updates, doc.termIds.length ≤ 1024)
    (hcount : (indexedDocuments termId updates).length ≤ maxPossiblePostings) :
    SearchesTermExactly (newMachine diskFd wal host poolSize nextPageId) updates termId params ↔
      FindsLiveDocuments updates termId params := by
  have hshort : ∀ doc ∈ insertedDocuments updates, doc.NoRecordSlots :=
    fun doc hdoc => (hterms doc hdoc).trans (by decide)
  refine ⟨SearchesTermExactly.findsLiveDocuments hlinear hfree hempty hpool hfits hshort hcount, ?_⟩
  intro hfinds
  obtain ⟨shard, m, s, hexec, hm, hs⟩ :=
    exec_runFreshShard_searched (F := F) hfree hempty wal hpool hfits hshort
  obtain ⟨items, hitems, hsearch⟩ := hs.indexed termId params
  have hperm := hitems hcount
  have hnumbers : ∀ x ∈ items, 0 < x.bm25fScore := fun x hx =>
    textRanking_resultsOf_positive params x (hperm.mem_iff.mp hx)
  refine ⟨shard, m, hexec, fun maxResults hmax => ?_⟩
  obtain ⟨m₁, hm₁, hrepresents⟩ := poolHandler_simulates.exec hm (hsearch hmax)
  obtain ⟨htop, hsorted⟩ := isTopK_exchangeSort_offerAll hlinear maxResults hnumbers
  refine ⟨_, m₁, hm₁, htop.of_perm (hperm.trans hfinds), hsorted, ?_⟩
  rintro rfl
  -- the scan selects from the same results
  obtain ⟨m₂, hm₂, -⟩ := poolHandler_simulates.exec hrepresents (hs.scan (textRanking params) hmax)
  rw [indexedDocuments_zero] at hperm
  have hscanned := fun x hx => textRanking_resultsOf_positive params x (hperm.mem_iff.mp hx)
  obtain ⟨htop', hsorted'⟩ := @isTopK_exchangeSort_offerAll _ _ _ _ (textRanking params).key _ hlinear
    maxResults ((textRanking params).resultsOf (unmarkedDocuments updates
      (numberedDocuments (insertedDocuments updates)))) (textRanking_resultsOf_positive params)
  exact ⟨_, m₂, hm₂, (htop'.of_perm hperm.symm).keys_eq hlinear htop hscanned hsorted' hsorted⟩

/-- Exact numbers are ordered. -/
theorem linearOn_rat (numbers : ℚ → Prop) : LinearOn numbers :=
  ⟨fun a _ => lt_irrefl a, fun _ _ _ _ _ _ => lt_trans, fun a b _ _ => lt_trichotomy a b⟩

/-- Two documents of which one is deleted, in a pool of two frames. -/
theorem searchesTermExactly_iff_two_frames :
    SearchesTermExactly (newMachine 0 ⟨3, 0⟩ Host.empty 2 0)
        [.insert (.ofTerms 1 1 [7] (by decide)), .insert (.ofTerms 2 3 [9, 7] (by decide)), .delete 0]
        7 exactParams ↔
      FindsLiveDocuments
        [.insert (.ofTerms 1 1 [7] (by decide)), .insert (.ofTerms 2 3 [9, 7] (by decide)), .delete 0]
        7 exactParams :=
  searchesTermExactly_iff (linearOn_rat _) ⟨rfl, rfl, rfl, rfl⟩ rfl ⟨3, 0⟩
    ⟨le_refl 0, le_refl 2, by decide, by decide⟩ (by decide) (by decide) (by decide)

/-- The deletion of document 32768 hides document 0 from the search. -/
theorem not_searchesTermExactly :
    ¬SearchesTermExactly (newMachine 0 ⟨3, 0⟩ Host.empty 2 0)
      [.insert (.ofTerms 1 1 [7] (by decide)), .delete 32768] 7 exactParams := by
  intro h
  have hfinds := h.findsLiveDocuments (linearOn_rat _) ⟨rfl, rfl, rfl, rfl⟩ rfl
    ⟨le_refl 0, le_refl 2, by decide, by decide⟩ (by decide) (by decide) (by decide)
  have hlength := hfinds.length_eq
  have hnone : ((textRanking exactParams).resultsOf (unmarkedDocuments
      [.insert (.ofTerms 1 1 [7] (by decide)), .delete 32768]
      (indexedDocuments 7 [.insert (.ofTerms 1 1 [7] (by decide)), .delete 32768]))).length = 0 := by
    decide +kernel
  have hone : ((textRanking exactParams).resultsOf ((liveDocuments
      [.insert (.ofTerms 1 1 [7] (by decide)), .delete 32768]).filter fun entry =>
        entry.1.PostedUnder 7)).length = 1 := by
    decide +kernel
  omega

end Pools

end FtsUring
