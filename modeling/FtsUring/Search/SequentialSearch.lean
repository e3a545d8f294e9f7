import FtsUring.Search.TermSearch

/-!
# The sequential searches

After insertions and deletions on a new shard, the text search and the vector search look at every data
page and select the best results for the documents that the tombstone page does not mark. These are the
results for the live documents unless a deletion marks another document, or none.
-/

namespace FtsUring

open Foundation

variable {F : Type} [Double F]

/-- A search selects the best results for the documents that were inserted and not deleted, in descending
order, whatever the number of results. -/
def SelectsLiveDocuments (m : Machine) (updates : List ShardUpdate) (ranking : Ranking F)
    (search : ℕ → PageProgram (List (UnifiedSearchResult F))) : Prop :=
  ∀ maxResults, 0 < maxResults → ∃ results m', poolHandler.exec (search maxResults) m = some (results, m') ∧
    IsTopK ranking.key maxResults (ranking.resultsOf (liveDocuments updates)) results ∧
      results.Pairwise fun x y => ¬ranking.key x < ranking.key y

/-- The documents that the tombstone page leaves unmarked have the results of the live ones. -/
def ScansLiveDocuments (updates : List ShardUpdate) (ranking : Ranking F) : Prop :=
  (ranking.resultsOf (unmarkedDocuments updates (numberedDocuments (insertedDocuments updates)))).Perm
    (ranking.resultsOf (liveDocuments updates))

/-- On a machine, after a sequence of calls on a new shard that all succeed, both searches are exact. -/
def SearchesExactly (m : Machine) (updates : List ShardUpdate) (params : Bm25fParams F)
    (queryVec : Vector UInt32 embeddingDim) : Prop :=
  ∃ shard : Shard F, ∃ m', poolHandler.exec (runFreshShard updates) m =
      some (some (updates.map fun _ => true, shard), m') ∧
    (∀ termId, SelectsLiveDocuments m' updates (textRanking params) (shardSearchBm25f termId params)) ∧
      SelectsLiveDocuments m' updates (vectorRanking (F := F) queryVec) (shardSearchVector queryVec)

/-- The unmarked documents are the live ones when every deleted document has a bit of its own. -/
theorem scansLiveDocuments_of_ownTombstones {updates : List ShardUpdate}
    (hown : HaveOwnTombstones (deletedIds updates)) (ranking : Ranking F) :
    ScansLiveDocuments updates ranking := by
  rw [ScansLiveDocuments, unmarkedDocuments_eq_live hown]

section Searches

variable {m : Machine} {s : PageArray} {updates : List ShardUpdate} {ranking : Ranking F} {numbers : F → Prop}

/-- A search of all pages selects the best results for the unmarked documents. -/
theorem Searched.selects (h : Searched F s updates) (hm : Represents m s) (hlinear : LinearOn numbers)
    (hnumbers : ∀ result ∈ ranking.resultsOf (numberedDocuments (insertedDocuments updates)),
      numbers (ranking.key result)) {maxResults : ℕ} (hmax : 0 < maxResults) :
    ∃ results m', poolHandler.exec (searchPages ranking maxResults) m = some (results, m') ∧
      IsTopK ranking.key maxResults (ranking.resultsOf (unmarkedDocuments updates
        (numberedDocuments (insertedDocuments updates)))) results ∧
          results.Pairwise fun x y => ¬ranking.key x < ranking.key y := by
  obtain ⟨m', hexec, -⟩ := poolHandler_simulates.exec hm (h.scan ranking hmax)
  exact ⟨_, m', hexec, isTopK_exchangeSort_offerAll hlinear maxResults fun result hresult =>
    hnumbers result (ranking.resultsOf_subset (List.filter_subset_self _) hresult)⟩

/-- Such a search is exact when the unmarked documents have the results of the live ones. -/
theorem Searched.selectsLiveDocuments_iff (h : Searched F s updates) (hm : Represents m s)
    (hlinear : LinearOn numbers)
    (hnumbers : ∀ result ∈ ranking.resultsOf (numberedDocuments (insertedDocuments updates)),
      numbers (ranking.key result)) :
    SelectsLiveDocuments m updates ranking (searchPages ranking) ↔ ScansLiveDocuments updates ranking := by
  constructor
  · intro hselects
    set found := ranking.resultsOf (unmarkedDocuments updates (numberedDocuments (insertedDocuments updates)))
      with hfound
    -- a search with room for everything returns all of both
    set live := ranking.resultsOf (liveDocuments updates)
    have hmax : 0 < found.length + live.length + 1 := Nat.succ_pos _
    obtain ⟨results, m', hexec, hlive, -⟩ := hselects _ hmax
    obtain ⟨results', m'', hexec', hunmarked, -⟩ := h.selects hm hlinear hnumbers hmax
    rw [hexec, Option.some.injEq, Prod.mk.injEq] at hexec'
    obtain ⟨rfl, -⟩ := hexec'
    have hfoundRoom : found.length ≤ found.length + live.length + 1 := by omega
    have hliveRoom : live.length ≤ found.length + live.length + 1 := by omega
    exact hunmarked.perm_of_room hlive hfoundRoom hliveRoom
  · intro hscans maxResults hmax
    obtain ⟨results, m', hexec, htop, hsorted⟩ := h.selects hm hlinear hnumbers hmax
    exact ⟨results, m', hexec, htop.of_perm hscans, hsorted⟩

end Searches

section Pools

variable {host : Host} {diskFd : ℤ} {poolSize nextPageId : ℕ} {updates : List ShardUpdate}
  {params : Bm25fParams F} {queryVec : Vector UInt32 embeddingDim} {numbers : F → Prop}

/-- When the searches are exact, the unmarked documents have the results of the live ones. -/
theorem SearchesExactly.scansLiveDocuments (hlinear : LinearOn numbers) (hfree : host.FaultFree)
    (hempty : host.dataFile = []) {wal : WALManager} (hpool : UsablePool diskFd poolSize nextPageId)
    (hfits : (ShardView.fresh.updates updates).nextPageId < invalidPageId)
    (hshort : ∀ doc ∈ insertedDocuments updates, doc.NoRecordSlots)
    (htext : ∀ result ∈ (textRanking params).resultsOf (numberedDocuments (insertedDocuments updates)),
      numbers result.bm25fScore)
    (hvector : ∀ result ∈ (vectorRanking (F := F) queryVec).resultsOf
      (numberedDocuments (insertedDocuments updates)), numbers result.cosineScore)
    (h : SearchesExactly (newMachine diskFd wal host poolSize nextPageId) updates params queryVec) :
    ScansLiveDocuments updates (textRanking params) ∧
      ScansLiveDocuments updates (vectorRanking (F := F) queryVec) := by
  obtain ⟨shard, m, s, hexec, hm, hs⟩ :=
    exec_runFreshShard_searched (F := F) hfree hempty wal hpool hfits hshort
  obtain ⟨shard', m', hexec', htexts, hvectors⟩ := h
  rw [hexec, Option.some.injEq, Prod.mk.injEq] at hexec'
  obtain ⟨-, rfl⟩ := hexec'
  exact ⟨(hs.selectsLiveDocuments_iff hm hlinear htext).mp (htexts 0),
    (hs.selectsLiveDocuments_iff hm hlinear hvector).mp hvectors⟩

/-- The sequential searches are exact when the unmarked documents have the results of the live ones. -/
theorem searchesExactly_iff (hlinear : LinearOn numbers) (hfree : host.FaultFree)
    (hempty : host.dataFile = []) (wal : WALManager) (hpool : UsablePool diskFd poolSize nextPageId)
    (hfits : (ShardView.fresh.updates updates).nextPageId < invalidPageId)
    (hterms : ∀ doc ∈ insertedDocuments updates, doc.termIds.length ≤ 1024)
    (htext : ∀ result ∈ (textRanking params).resultsOf (numberedDocuments (insertedDocuments updates)),
      numbers result.bm25fScore)
    (hvector : ∀ result ∈ (vectorRanking (F := F) queryVec).resultsOf
      (numberedDocuments (insertedDocuments updates)), numbers result.cosineScore) :
    SearchesExactly (newMachine diskFd wal host poolSize nextPageId) updates params queryVec ↔
      ScansLiveDocuments updates (textRanking params) ∧
      ScansLiveDocuments updates (vectorRanking (F := F) queryVec) := by
  have hshort : ∀ doc ∈ insertedDocuments updates, doc.NoRecordSlots :=
    fun doc hdoc => (hterms doc hdoc).trans (by decide)
  refine ⟨SearchesExactly.scansLiveDocuments hlinear hfree hempty hpool hfits hshort htext hvector, ?_⟩
  rintro ⟨htexts, hvectors⟩
  obtain ⟨shard, m, s, hexec, hm, hs⟩ :=
    exec_runFreshShard_searched (F := F) hfree hempty wal hpool hfits hshort
  exact ⟨shard, m, hexec, fun _ => (hs.selectsLiveDocuments_iff hm hlinear htext).mpr htexts,
    (hs.selectsLiveDocuments_iff hm hlinear hvector).mpr hvectors⟩

/-- Two documents of which one is deleted, in a pool of two frames. -/
theorem searchesExactly_iff_two_frames :
    SearchesExactly (newMachine 0 ⟨3, 0⟩ Host.empty 2 0)
        [.insert (.ofTerms 1 1 [7] (by decide)), .insert (.ofTerms 2 3 [9, 7] (by decide)), .delete 0]
        exactParams (Vector.replicate embeddingDim 0) ↔
      ScansLiveDocuments
          [.insert (.ofTerms 1 1 [7] (by decide)), .insert (.ofTerms 2 3 [9, 7] (by decide)), .delete 0]
          (textRanking exactParams) ∧
        ScansLiveDocuments
          [.insert (.ofTerms 1 1 [7] (by decide)), .insert (.ofTerms 2 3 [9, 7] (by decide)), .delete 0]
          (vectorRanking (F := ℚ) (Vector.replicate embeddingDim 0)) :=
  searchesExactly_iff (linearOn_rat fun _ => True) ⟨rfl, rfl, rfl, rfl⟩ rfl ⟨3, 0⟩
    ⟨le_refl 0, le_refl 2, by decide, by decide⟩ (by decide) (by decide) (fun _ _ => trivial)
    fun _ _ => trivial

/-- The deletion of document 32768 hides document 0 from both searches. -/
theorem not_searchesExactly :
    ¬SearchesExactly (newMachine 0 ⟨3, 0⟩ Host.empty 2 0)
      [.insert (.ofTerms 1 1 [7] (by decide)), .delete 32768] exactParams (Vector.replicate embeddingDim 0) := by
  intro h
  obtain ⟨-, hvectors⟩ := h.scansLiveDocuments (linearOn_rat fun _ => True) ⟨rfl, rfl, rfl, rfl⟩ rfl
    ⟨le_refl 0, le_refl 2, by decide, by decide⟩ (by decide) (by decide) (fun _ _ => trivial)
    fun _ _ => trivial
  have hlength := hvectors.length_eq
  have hall : ∀ entries : List NumberedDocument,
      ((vectorRanking (F := ℚ) (Vector.replicate embeddingDim 0)).resultsOf entries).length =
        entries.length := by
    intro entries
    have hnodes := congrArg List.length (map_nodeId_vectorResults (F := ℚ) (Vector.replicate embeddingDim 0) entries)
    rwa [List.length_map, List.length_map] at hnodes
  rw [hall, hall] at hlength
  exact absurd hlength (by decide)

end Pools

end FtsUring
