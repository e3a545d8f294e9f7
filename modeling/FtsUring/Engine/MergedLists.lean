import FtsUring.Engine.Merging

/-!
# What an engine merges

The records that the pages of a shard store and that are not marked as deleted are what its searches look at,
whatever calls have led to these pages. When no two of them are of one node, the lists that the shards return
have every node at most once, and so the merge of the lists neither loses nor doubles a result.
-/

namespace FtsUring

open Foundation

variable {F : Type} [Double F]

/-- `MAX_SHARDS`. -/
def maxShards : ℕ := 16

/-- The records that the pages of a shard store and that are not marked as deleted. -/
def EngineShard.Stores (s : EngineShard F) (records : List UnifiedDocRecord) : Prop :=
  ∃ pages tombstones image, Represents s.machine pages ∧ pages.Scannable tombstones image ∧
    records = (recordsFrom image firstDataPageId pages.nextPageId).filter
      fun rec => !ftsTombstoneIsDeleted tombstones rec.docId

/-- The best results for some records. -/
def bestOf (ranking : Ranking F) (records : List UnifiedDocRecord) : List (UnifiedSearchResult F) :=
  exchangeSort ranking.key (offerAll ranking.key maxResultsPerShard [] (records.filterMap ranking.resultOf))

/-! ## The searches of the shards -/

/-- The searches of a shard. -/
theorem EngineShard.Stores.exec_searchShard {s : EngineShard F} {records : List UnifiedDocRecord}
    (h : s.Stores records) (params : Bm25fParams F) (query : UnifiedQuery) :
    ∃ machine, poolHandler.exec (searchShard params query) s.machine =
      some ((if query.useText then bestOf (textRanking params) records else [],
        if query.useVector then bestOf (vectorRanking query.queryEmbedding) records else []), machine) := by
  obtain ⟨pages, tombstones, image, hpages, hscannable, rfl⟩ := h
  have hmax : 0 < maxResultsPerShard := by decide
  set records := (recordsFrom image firstDataPageId pages.nextPageId).filter
    fun rec => !ftsTombstoneIsDeleted tombstones rec.docId
  have htext : arrayHandler.exec (shardSearchBm25f 0 params maxResultsPerShard) pages =
      some (bestOf (textRanking params) records, pages) := hscannable.exec_searchPages (textRanking params) hmax
  have hvector : arrayHandler.exec (shardSearchVector query.queryEmbedding maxResultsPerShard) pages =
      some (bestOf (vectorRanking query.queryEmbedding : Ranking F) records, pages) :=
    hscannable.exec_searchPages (vectorRanking query.queryEmbedding) hmax
  have hboth : arrayHandler.exec (searchShard params query) pages =
      some ((if query.useText then bestOf (textRanking params) records else [],
        if query.useVector then bestOf (vectorRanking query.queryEmbedding) records else []), pages) := by
    rw [searchShard]
    cases query.useText <;> cases query.useVector <;>
      simp only [if_true, Bool.false_eq_true, if_false, pure_bind]
    · rfl
    · rw [Handler.exec_bind_of_eq _ hvector]
      rfl
    · rw [Handler.exec_bind_of_eq _ htext]
      rfl
    · rw [Handler.exec_bind_of_eq _ htext, Handler.exec_bind_of_eq _ hvector]
      rfl
  obtain ⟨machine, hexec, -⟩ := poolHandler_simulates.exec hpages hboth
  exact ⟨machine, hexec⟩

/-- What the shards return together. -/
theorem scatter_stored {shards : List (EngineShard F)} {contents : List (List UnifiedDocRecord)}
    (h : List.Forall₂ EngineShard.Stores shards contents) (params : Bm25fParams F) (query : UnifiedQuery) :
    ∃ found shards', scatter (searchShard params query) shards = some (found, shards') ∧
      found.flatMap Prod.fst =
        (if query.useText then contents.flatMap (bestOf (textRanking params)) else []) ∧
      found.flatMap Prod.snd =
        if query.useVector then contents.flatMap (bestOf (vectorRanking query.queryEmbedding)) else [] := by
  have hfound : List.Forall₂ (fun (s : EngineShard F) answer => ∃ machine,
      poolHandler.exec (searchShard params query) s.machine = some (answer, machine)) shards
      (contents.map fun records => (if query.useText then bestOf (textRanking params) records else [],
        if query.useVector then bestOf (vectorRanking query.queryEmbedding) records else [])) := by
    rw [List.forall₂_map_right_iff]
    exact h.imp fun s records hs => hs.exec_searchShard params query
  obtain ⟨shards', hscatter⟩ := scatter_eq hfound
  refine ⟨_, shards', hscatter, ?_, ?_⟩
  · rw [List.flatMap_map]
    cases query.useText
    · exact List.flatMap_eq_nil_iff.mpr fun _ _ => rfl
    · rfl
  · rw [List.flatMap_map]
    cases query.useVector
    · exact List.flatMap_eq_nil_iff.mpr fun _ _ => rfl
    · rfl

/-- The records of the documents that the tombstone page leaves unmarked. -/
def unmarkedRecords (updates : List ShardUpdate) : List UnifiedDocRecord :=
  (unmarkedDocuments updates (numberedDocuments (insertedDocuments updates))).map
    fun entry => entry.1.record entry.2

/-- The records of a shard on which calls were made. -/
theorem EngineShard.Ran.stores {s : EngineShard F} {updates : List ShardUpdate} (h : s.Ran updates)
    (hshort : ∀ doc ∈ insertedDocuments updates, doc.NoRecordSlots) : s.Stores (unmarkedRecords updates) := by
  obtain ⟨host, wal, diskFd, poolSize, nextPageId, hfree, hempty, hpool, hrun⟩ := h.run
  obtain ⟨pages, hpages, hexec⟩ := exec_runFreshShard (F := F) hfree hempty wal h.fits.le
  obtain ⟨m, hm, hrepresents⟩ := hexec diskFd poolSize nextPageId hpool
  rw [hrun, Option.some.injEq, Prod.mk.injEq] at hm
  have hslots := ShardView.noRecordSlots_updates ShardView.valid_fresh ShardView.noRecordSlots_fresh
    hshort h.fits.le
  have hindexed := Indexed.fresh.updates ShardView.valid_fresh h.fits.le
  rw [List.nil_append] at hindexed
  obtain ⟨image, hscannable, hrecords⟩ := hpages.exists_scannable hslots h.fits
  have hnumbered := map_storedDocuments hindexed.length_locations
  refine ⟨pages, _, image, hm.2 ▸ hrepresents, hscannable, ?_⟩
  rw [hrecords, hindexed.stored_eq.1, unmarkedRecords, unmarkedDocuments, ← hnumbered, List.filter_map,
    List.map_map, List.filter_map]
  have hunmarked : ((fun rec : UnifiedDocRecord => !ftsTombstoneIsDeleted
      (ShardView.fresh.updates updates).tombstones rec.docId) ∘ StoredDocument.record) =
      fun entry => decide (¬∃ deleted ∈ deletedIds updates, SharesTombstone deleted entry.docId) :=
    funext fun entry => not_isDeleted_updates updates entry.docId
  rw [hunmarked]
  rfl

/-- The records of shards on which calls were made. -/
theorem stores_of_ran {shards : List (EngineShard F)} {distribution : List (List ShardUpdate)}
    (hran : List.Forall₂ EngineShard.Ran shards distribution)
    (hshort : ∀ updates ∈ distribution, ∀ doc ∈ insertedDocuments updates, doc.NoRecordSlots) :
    List.Forall₂ EngineShard.Stores shards (distribution.map unmarkedRecords) := by
  induction hran with
  | nil => exact List.Forall₂.nil
  | cons hs _ ih =>
    exact List.Forall₂.cons (hs.stores (hshort _ List.mem_cons_self))
      (ih fun updates hupdates => hshort updates (List.mem_cons_of_mem _ hupdates))

/-! ## What is gathered -/

section Gathered

variable {numbers : F → Prop} {contents : List (List UnifiedDocRecord)}

/-- The results that the shards return are those of records, each node at most once. -/
structure GatheredFrom (ranking : Ranking F) (contents : List (List UnifiedDocRecord))
    (gathered : List (UnifiedSearchResult F)) : Prop where
  nodup : (gathered.map UnifiedSearchResult.nodeId).Nodup
  length_le : gathered.length ≤ maxResultsPerShard * contents.length
  found : ∀ result ∈ gathered, ∃ rec ∈ contents.flatten, ranking.resultOf rec = some result

/-- The nodes of the results are some of those of the records. -/
theorem map_nodeId_sublist {ranking : Ranking F}
    (hnode : ∀ nodeId score, (ranking.result nodeId score).nodeId = nodeId) (records : List UnifiedDocRecord) :
    ((records.filterMap ranking.resultOf).map UnifiedSearchResult.nodeId).Sublist
      (records.map UnifiedDocRecord.nodeId) := by
  induction records with
  | nil => exact List.Sublist.slnil
  | cons rec records ih =>
    cases hresult : ranking.resultOf rec with
    | none =>
      rw [List.filterMap_cons_none hresult, List.map_cons]
      exact ih.cons _
    | some result =>
      have hsame : result.nodeId = rec.nodeId := by
        rw [Ranking.resultOf] at hresult
        split_ifs at hresult
        rw [← Option.some.inj hresult, hnode]
      rw [List.filterMap_cons_some hresult, List.map_cons, List.map_cons, hsame]
      exact ih.cons_cons _

/-- What the shards return for records of different nodes. -/
theorem gatheredFrom_flatMap (hlinear : LinearOn numbers) {ranking : Ranking F}
    (hnode : ∀ nodeId score, (ranking.result nodeId score).nodeId = nodeId)
    (hkey : ∀ nodeId score, ranking.key (ranking.result nodeId score) = score)
    (hdistinct : (contents.flatten.map UnifiedDocRecord.nodeId).Nodup)
    (hnumbers : ∀ rec ∈ contents.flatten, numbers (ranking.score rec)) :
    GatheredFrom ranking contents (contents.flatMap (bestOf ranking)) := by
  have hkeys : ∀ records ∈ contents, ∀ result ∈ records.filterMap ranking.resultOf,
      numbers (ranking.key result) := by
    intro records hrecords result hresult
    obtain ⟨rec, hrec, hsome⟩ := List.mem_filterMap.mp hresult
    rw [Ranking.resultOf] at hsome
    split_ifs at hsome
    rw [← Option.some.inj hsome, hkey]
    exact hnumbers rec (List.mem_flatten_of_mem hrecords hrec)
  have hparts : List.Forall₂ (IsTopK ranking.key maxResultsPerShard)
      (contents.map fun records => records.filterMap ranking.resultOf) (contents.map (bestOf ranking)) := by
    rw [List.forall₂_map_left_iff, List.forall₂_map_right_iff, List.forall₂_same]
    exact fun records hrecords =>
      (isTopK_exchangeSort_offerAll hlinear maxResultsPerShard (hkeys records hrecords)).1
  obtain ⟨rest, hrest⟩ := IsTopK.exists_rest hparts
  have hall : (contents.map fun records => records.filterMap ranking.resultOf).flatten =
      contents.flatten.filterMap ranking.resultOf := List.filterMap_flatten.symm
  rw [hall, ← List.flatMap_def] at hrest
  refine ⟨?_, ?_, fun result hresult => ?_⟩
  · have hnodes := (hrest.map UnifiedSearchResult.nodeId).nodup_iff.mpr
      (hdistinct.sublist (map_nodeId_sublist hnode contents.flatten))
    rw [List.map_append] at hnodes
    exact hnodes.of_append_left
  · clear hdistinct hnumbers hrest hall hparts rest
    induction contents with
    | nil => exact le_refl 0
    | cons records contents ih =>
      have hless := ih fun others hothers => hkeys others (List.mem_cons_of_mem _ hothers)
      have hone := (isTopK_exchangeSort_offerAll hlinear maxResultsPerShard (hkeys records List.mem_cons_self)).1
      obtain ⟨-, -, hlength, -⟩ := hone
      have hbest : (bestOf ranking records).length ≤ maxResultsPerShard := by
        rw [bestOf, hlength]
        exact min_le_left _ _
      rw [List.flatMap_cons, List.length_append, List.length_cons, Nat.mul_succ]
      omega
  · exact List.mem_filterMap.mp (hrest.mem_iff.mp (List.mem_append_left _ hresult))

/-- Nothing is gathered when a kind of search is not asked for. -/
theorem gatheredFrom_nil (ranking : Ranking F) : GatheredFrom ranking contents [] where
  nodup := List.nodup_nil
  length_le := Nat.zero_le _
  found _ hresult := absurd hresult List.not_mem_nil

/-- The scores of the records can be compared. -/
def ScoresIn (numbers : F → Prop) (ranking : Ranking F) (contents : List (List UnifiedDocRecord)) : Prop :=
  ∀ rec ∈ contents.flatten, numbers (ranking.score rec)

/-- The scores of what is gathered can be compared. -/
theorem GatheredFrom.comparable {ranking : Ranking F} {gathered : List (UnifiedSearchResult F)}
    (h : GatheredFrom ranking contents gathered)
    (hkey : ∀ nodeId score, ranking.key (ranking.result nodeId score) = score)
    (hscores : ScoresIn numbers ranking contents) : ∀ result ∈ gathered, numbers (ranking.key result) := by
  intro result hresult
  obtain ⟨rec, hrec, hsome⟩ := h.found result hresult
  rw [Ranking.resultOf] at hsome
  split_ifs at hsome
  rw [← Option.some.inj hsome, hkey]
  exact hscores rec hrec

end Gathered

/-! ## Ranking what is gathered -/

section Ranking

variable {contents : List (List UnifiedDocRecord)} {params : Bm25fParams F}
  {queryVec : Vector UInt32 embeddingDim} {text vector : List (UnifiedSearchResult F)}

/-- A place in a gathered list as a rank. -/
theorem toNat_rank {i count : ℕ} (hi : i < count) (hcount : count ≤ maxResultsPerShard * maxShards) :
    (UInt32.ofNat (i + 1)).toNat = i + 1 := by
  have hlimit : maxResultsPerShard * maxShards = 1024 := rfl
  rw [UInt32.toNat_ofNat', Nat.mod_eq_of_lt (by omega)]

/-- A result with its rank in the text search. -/
theorem getElem?_rankText {i : ℕ} {result : UnifiedSearchResult F} (h : (rankText text)[i]? = some result) :
    i < text.length ∧ result.bm25fRank = UInt32.ofNat (i + 1) ∧
      ∃ other ∈ text, result = { other with bm25fRank := UInt32.ofNat (i + 1) } := by
  rw [rankText, List.getElem?_mapIdx] at h
  obtain ⟨other, hother, rfl⟩ := Option.map_eq_some_iff.mp h
  have hperm := @perm_exchangeSort _ _ _ _ (UnifiedSearchResult.bm25fScore (F := F)) text
  refine ⟨?_, rfl, other, hperm.mem_iff.mp (List.mem_of_getElem? hother), rfl⟩
  rw [← hperm.length_eq]
  exact (List.getElem?_eq_some_iff.mp hother).1

/-- A result with its rank in the vector search. -/
theorem getElem?_rankVector {i : ℕ} {result : UnifiedSearchResult F}
    (h : (rankVector vector)[i]? = some result) :
    i < vector.length ∧ result.cosineRank = UInt32.ofNat (i + 1) ∧
      ∃ other ∈ vector, result = { other with cosineRank := UInt32.ofNat (i + 1) } := by
  rw [rankVector, List.getElem?_mapIdx] at h
  obtain ⟨other, hother, rfl⟩ := Option.map_eq_some_iff.mp h
  have hperm := @perm_exchangeSort _ _ _ _ (UnifiedSearchResult.cosineScore (F := F)) vector
  refine ⟨?_, rfl, other, hperm.mem_iff.mp (List.mem_of_getElem? hother), rfl⟩
  rw [← hperm.length_eq]
  exact (List.getElem?_eq_some_iff.mp hother).1

/-- Ranking keeps the nodes and the scores of the texts. -/
theorem map_rankText_pair (text : List (UnifiedSearchResult F)) :
    (rankText text).map (fun result => (result.nodeId, result.bm25fScore)) =
      (exchangeSort UnifiedSearchResult.bm25fScore text).map
        fun result => (result.nodeId, result.bm25fScore) := by
  rw [rankText]
  apply map_mapIdx_eq
  intro i result
  rfl

omit [Double F] in
/-- The nodes of a ranked list. -/
theorem nodup_of_map_pair {sorted ranked gathered : List (UnifiedSearchResult F)}
    {key : UnifiedSearchResult F → F} (hperm : sorted.Perm gathered)
    (hsame : ranked.map (fun result => (result.nodeId, key result)) =
      sorted.map fun result => (result.nodeId, key result))
    (hnodup : (gathered.map UnifiedSearchResult.nodeId).Nodup) :
    (ranked.map UnifiedSearchResult.nodeId).Nodup := by
  have hnodes := congrArg (List.map Prod.fst) hsame
  rw [List.map_map, List.map_map] at hnodes
  change ranked.map UnifiedSearchResult.nodeId = sorted.map UnifiedSearchResult.nodeId at hnodes
  rw [hnodes]
  exact (hperm.map _).nodup_iff.mpr hnodup

/-- Merging what was gathered. -/
theorem mergesLists_gathered (htext : GatheredFrom (textRanking params) contents text)
    (hvector : GatheredFrom (vectorRanking queryVec) contents vector) (hmany : contents.length ≤ maxShards) :
    MergesLists (rankText text) (rankVector vector) ((rankVector vector).foldl mergeVector (rankText text)) := by
  have hlimit : maxResultsPerShard * contents.length ≤ maxResultsPerShard * maxShards :=
    Nat.mul_le_mul_left _ hmany
  have hpairs : (rankVector vector).map (fun result => (result.nodeId, result.cosineScore)) =
      (exchangeSort UnifiedSearchResult.cosineScore vector).map
        fun result => (result.nodeId, result.cosineScore) := map_rankVector vector
  apply mergesLists_foldl
  · exact nodup_of_map_pair (perm_exchangeSort text) (map_rankText_pair text) htext.nodup
  · intro i result hresult
    obtain ⟨hi, hrank, -⟩ := getElem?_rankText hresult
    rw [hrank]
    exact toNat_rank hi (htext.length_le.trans hlimit)
  · intro result hresult
    obtain ⟨i, hi⟩ := List.mem_iff_getElem?.mp hresult
    obtain ⟨-, -, other, hother, rfl⟩ := getElem?_rankText hi
    obtain ⟨rec, -, hsome⟩ := htext.found other hother
    rw [Ranking.resultOf] at hsome
    split_ifs at hsome
    rw [← Option.some.inj hsome]
    exact ⟨rfl, rfl⟩
  · exact nodup_of_map_pair (perm_exchangeSort vector) hpairs hvector.nodup
  · intro i result hresult
    obtain ⟨hi, hrank, -⟩ := getElem?_rankVector hresult
    rw [hrank]
    exact toNat_rank hi (hvector.length_le.trans hlimit)
  · intro result hresult
    obtain ⟨i, hi⟩ := List.mem_iff_getElem?.mp hresult
    obtain ⟨-, -, other, hother, rfl⟩ := getElem?_rankVector hi
    obtain ⟨rec, -, hsome⟩ := hvector.found other hother
    rw [Ranking.resultOf] at hsome
    split_ifs at hsome
    rw [← Option.some.inj hsome]
    exact ⟨rfl, rfl⟩

/-- The ranks are places in the sorted lists. -/
theorem MergesLists.sorted {merged : List (UnifiedSearchResult F)}
    (h : MergesLists (rankText text) (rankVector vector) merged) :
    MergesLists (exchangeSort UnifiedSearchResult.bm25fScore text)
      (exchangeSort UnifiedSearchResult.cosineScore vector) merged := by
  have htextPairs := map_rankText_pair text
  have hvectorPairs : (rankVector vector).map (fun result => (result.nodeId, result.cosineScore)) =
      (exchangeSort UnifiedSearchResult.cosineScore vector).map
        fun result => (result.nodeId, result.cosineScore) := map_rankVector vector
  have htextNodes := congrArg (List.map Prod.fst) htextPairs
  have hvectorNodes := congrArg (List.map Prod.fst) hvectorPairs
  rw [List.map_map, List.map_map] at htextNodes hvectorNodes
  change (rankText text).map UnifiedSearchResult.nodeId =
    (exchangeSort UnifiedSearchResult.bm25fScore text).map UnifiedSearchResult.nodeId at htextNodes
  change (rankVector vector).map UnifiedSearchResult.nodeId =
    (exchangeSort UnifiedSearchResult.cosineScore vector).map UnifiedSearchResult.nodeId at hvectorNodes
  refine ⟨h.nodup, fun nodeId => ?_, fun result hresult => (h.text result hresult).congr htextPairs,
    fun result hresult => (h.vector result hresult).congr hvectorPairs⟩
  rw [h.mem_iff, htextNodes, hvectorNodes]

end Ranking

/-! ## What an engine answers -/

section Answer

variable {numbers : F → Prop} {engine : UnifiedEngine F} {query : UnifiedQuery}
  {contents : List (List UnifiedDocRecord)} {qsort : List (UnifiedSearchResult F) → List (UnifiedSearchResult F)}

/-- The engine merges two gathered lists: the ranks are places in the sorted lists, no node is lost or
doubled, and the answers are the first ones of the merged results sorted by the final score. -/
structure MergesGathered (qsort : List (UnifiedSearchResult F) → List (UnifiedSearchResult F))
    (engine : UnifiedEngine F) (query : UnifiedQuery) (text vector : List (UnifiedSearchResult F)) : Prop where
  textSorted : (exchangeSort UnifiedSearchResult.bm25fScore text).Perm text ∧
    (exchangeSort UnifiedSearchResult.bm25fScore text).Pairwise fun a b => ¬a.bm25fScore < b.bm25fScore
  vectorSorted : (exchangeSort UnifiedSearchResult.cosineScore vector).Perm vector ∧
    (exchangeSort UnifiedSearchResult.cosineScore vector).Pairwise fun a b => ¬a.cosineScore < b.cosineScore
  merges : MergesLists (exchangeSort UnifiedSearchResult.bm25fScore text)
    (exchangeSort UnifiedSearchResult.cosineScore vector) (mergedResults query text vector)
  answers : ∃ (final : List (UnifiedSearchResult F)) (engine' : UnifiedEngine F),
    final.Perm (scoredResults query (mergedResults query text vector)) ∧
    (final.Pairwise fun a b => ¬finalScore query a < finalScore query b) ∧
      ∀ maxResults, engineSearch qsort engine query maxResults = some (final.take maxResults, engine')

/-- The scores that a query compares are in a linear order. -/
structure Comparable (numbers : F → Prop) (params : Bm25fParams F) (query : UnifiedQuery)
    (contents : List (List UnifiedDocRecord)) : Prop where
  linear : LinearOn numbers
  text : query.useText → ScoresIn numbers (textRanking params) contents
  vector : query.useVector → ScoresIn numbers (vectorRanking query.queryEmbedding : Ranking F) contents
  fused : ∀ result, numbers (fusedScore result)

/-- What the text searches return. -/
theorem Comparable.gatheredText {params : Bm25fParams F} (h : Comparable numbers params query contents)
    (hdistinct : (contents.flatten.map UnifiedDocRecord.nodeId).Nodup) :
    GatheredFrom (textRanking params) contents
        (if query.useText then contents.flatMap (bestOf (textRanking params)) else []) ∧
      ∀ result ∈ if query.useText then contents.flatMap (bestOf (textRanking params)) else [],
        numbers result.bm25fScore := by
  by_cases htext : query.useText
  · have hgathered := gatheredFrom_flatMap h.linear (fun _ _ => rfl) (fun _ _ => rfl) hdistinct (h.text htext)
    rw [if_pos htext]
    exact ⟨hgathered, hgathered.comparable (fun _ _ => rfl) (h.text htext)⟩
  · rw [if_neg htext]
    exact ⟨gatheredFrom_nil _, fun _ hresult => absurd hresult List.not_mem_nil⟩

/-- What the vector searches return. -/
theorem Comparable.gatheredVector {params : Bm25fParams F} (h : Comparable numbers params query contents)
    (hdistinct : (contents.flatten.map UnifiedDocRecord.nodeId).Nodup) :
    GatheredFrom (vectorRanking query.queryEmbedding : Ranking F) contents
        (if query.useVector then contents.flatMap (bestOf (vectorRanking query.queryEmbedding)) else []) ∧
      ∀ result ∈ if query.useVector then contents.flatMap (bestOf (vectorRanking query.queryEmbedding : Ranking F))
        else [], numbers result.cosineScore := by
  by_cases hvector : query.useVector
  · have hgathered := gatheredFrom_flatMap h.linear (fun _ _ => rfl) (fun _ _ => rfl) hdistinct
      (h.vector hvector)
    rw [if_pos hvector]
    exact ⟨hgathered, hgathered.comparable (fun _ _ => rfl) (h.vector hvector)⟩
  · rw [if_neg hvector]
    exact ⟨gatheredFrom_nil _, fun _ hresult => absurd hresult List.not_mem_nil⟩

/-- What is gathered for a query: a list is empty when it is not asked for. -/
structure GatheredFor (numbers : F → Prop) (params : Bm25fParams F) (query : UnifiedQuery)
    (contents : List (List UnifiedDocRecord)) (text vector : List (UnifiedSearchResult F)) : Prop where
  fromText : GatheredFrom (textRanking params) contents text
  fromVector : GatheredFrom (vectorRanking query.queryEmbedding) contents vector
  textNumbers : ∀ result ∈ text, numbers result.bm25fScore
  vectorNumbers : ∀ result ∈ vector, numbers result.cosineScore
  noText : query.useText = false → text = []
  noVector : query.useVector = false → vector = []

/-- What the engine gathers from its shards. -/
theorem exists_gathered (hstores : List.Forall₂ EngineShard.Stores engine.shards contents)
    (hcomparable : Comparable numbers engine.params query contents)
    (hdistinct : (contents.flatten.map UnifiedDocRecord.nodeId).Nodup) :
    ∃ found shards', scatter (searchShard engine.params query) engine.shards = some (found, shards') ∧
      GatheredFor numbers engine.params query contents (found.flatMap Prod.fst) (found.flatMap Prod.snd) := by
  obtain ⟨found, shards', hscatter, hfst, hsnd⟩ := scatter_stored hstores engine.params query
  obtain ⟨htext, htextNumbers⟩ := hcomparable.gatheredText hdistinct
  obtain ⟨hvector, hvectorNumbers⟩ := hcomparable.gatheredVector hdistinct
  refine ⟨found, shards', hscatter, hfst ▸ htext, hsnd ▸ hvector, hfst ▸ htextNumbers, hsnd ▸ hvectorNumbers,
    fun hno => ?_, fun hno => ?_⟩
  · rw [hfst, hno]
    rfl
  · rw [hsnd, hno]
    rfl

/-- The merged results of a query. -/
theorem GatheredFor.mergesLists {params : Bm25fParams F} {text vector : List (UnifiedSearchResult F)}
    (h : GatheredFor numbers params query contents text vector) (hmany : contents.length ≤ maxShards) :
    MergesLists (exchangeSort UnifiedSearchResult.bm25fScore text)
      (exchangeSort UnifiedSearchResult.cosineScore vector) (mergedResults query text vector) := by
  have hmerged : mergedResults query text vector = (rankVector vector).foldl mergeVector (rankText text) := by
    rw [mergedResults]
    cases htext : query.useText <;> cases hvector : query.useVector <;>
      simp only [if_true, Bool.false_eq_true, if_false]
    · rw [h.noText htext, h.noVector hvector]
      rfl
    · rw [h.noText htext]
      rfl
    · rw [h.noVector hvector]
      rfl
  rw [hmerged]
  exact (mergesLists_gathered h.fromText h.fromVector hmany).sorted

/-- The final scores of the merged results can be compared. -/
theorem GatheredFor.comparable {params : Bm25fParams F} {text vector : List (UnifiedSearchResult F)}
    (h : GatheredFor numbers params query contents text vector) (hmany : contents.length ≤ maxShards)
    (hcomparable : Comparable numbers params query contents) :
    ∀ result ∈ scoredResults query (mergedResults query text vector), numbers (finalScore query result) := by
  have hmerges := h.mergesLists hmany
  intro result hresult
  rw [scoredResults] at hresult
  rw [finalScore]
  split_ifs at hresult ⊢ with hhybrid htext
  · obtain ⟨merged, -, rfl⟩ := List.mem_map.mp hresult
    exact hcomparable.fused merged
  · have hnone := h.noVector (Bool.eq_false_iff.mpr fun hvector => hhybrid ⟨htext, hvector⟩)
    have hnode := (hmerges.mem_iff result.nodeId).mp (List.mem_map_of_mem hresult)
    rw [hnone] at hnode
    obtain ⟨other, hother, hsame⟩ := List.mem_map.mp (hnode.resolve_right List.not_mem_nil)
    rw [(hmerges.text result hresult).score_listed other hother hsame]
    exact h.textNumbers other ((perm_exchangeSort text).mem_iff.mp hother)
  · have hnone := h.noText (Bool.eq_false_iff.mpr htext)
    have hnode := (hmerges.mem_iff result.nodeId).mp (List.mem_map_of_mem hresult)
    rw [hnone] at hnode
    obtain ⟨other, hother, hsame⟩ := List.mem_map.mp (hnode.resolve_left List.not_mem_nil)
    rw [(hmerges.vector result hresult).score_listed other hother hsame]
    exact h.vectorNumbers other ((perm_exchangeSort vector).mem_iff.mp hother)

/-- An engine whose records are of different nodes merges what its shards return. -/
theorem mergesGathered_of_distinct (hstores : List.Forall₂ EngineShard.Stores engine.shards contents)
    (hmany : engine.shards.length ≤ maxShards)
    (hdistinct : (contents.flatten.map UnifiedDocRecord.nodeId).Nodup)
    (hcomparable : Comparable numbers engine.params query contents)
    (hqsort : SortsByFusedScore numbers qsort) :
    ∃ found shards', scatter (searchShard engine.params query) engine.shards = some (found, shards') ∧
      MergesGathered qsort engine query (found.flatMap Prod.fst) (found.flatMap Prod.snd) := by
  obtain ⟨found, shards', hscatter, hgathered⟩ := exists_gathered hstores hcomparable hdistinct
  have hcontents : contents.length ≤ maxShards := hstores.length_eq ▸ hmany
  obtain ⟨hperm, hsorted⟩ := fuseResults_sorted hcomparable.linear hqsort
    (hgathered.comparable hcontents hcomparable)
  refine ⟨found, shards', hscatter, ?_, ?_, hgathered.mergesLists hcontents, ?_⟩
  · exact ⟨perm_exchangeSort _, pairwise_exchangeSort hcomparable.linear hgathered.textNumbers⟩
  · exact ⟨perm_exchangeSort _, pairwise_exchangeSort hcomparable.linear hgathered.vectorNumbers⟩
  · refine ⟨_, { engine with shards := shards' }, hperm, hsorted, fun maxResults => ?_⟩
    rw [engineSearch, hscatter]
    rfl

end Answer

/-! ## Two documents -/

/-- Exact numbers are sorted by exchanging them. -/
theorem sortsByFusedScore_exchangeSort :
    SortsByFusedScore (fun _ : ℚ => True) (exchangeSort UnifiedSearchResult.rrfScore) :=
  fun results _ =>
    ⟨perm_exchangeSort results, pairwise_exchangeSort (linearOn_rat fun _ => True) fun _ _ => trivial⟩

/-- Exact numbers can be compared. -/
theorem comparable_rat (params : Bm25fParams ℚ) (query : UnifiedQuery) (contents : List (List UnifiedDocRecord)) :
    Comparable (fun _ => True) params query contents :=
  ⟨linearOn_rat fun _ => True, fun _ _ _ => trivial, fun _ _ _ => trivial, fun _ => trivial⟩

/-- A hybrid query. -/
def hybridQuery : UnifiedQuery := ⟨[7], false, Vector.replicate embeddingDim 0, true, true⟩

/-- The documents of two nodes in two shards. -/
theorem exists_mergesGathered : ∃ (engine : UnifiedEngine ℚ) (found : _) (shards' : _),
    List.Forall₂ EngineShard.Ran engine.shards [[.insert (.ofTerms 1 1 [7] (by decide))],
      [.insert (.ofTerms 2 3 [9, 7] (by decide))]] ∧
    scatter (searchShard engine.params hybridQuery) engine.shards = some (found, shards') ∧
      MergesGathered (exchangeSort UnifiedSearchResult.rrfScore) engine hybridQuery (found.flatMap Prod.fst)
        (found.flatMap Prod.snd) := by
  obtain ⟨engine, hran, -⟩ := @exists_engine_ran [[.insert (.ofTerms 1 1 [7] (by decide))],
    [.insert (.ofTerms 2 3 [9, 7] (by decide))]] (by decide) (by decide)
  have hmany : engine.shards.length ≤ maxShards := by
    rw [hran.length_eq]
    decide
  obtain ⟨found, shards', hscatter, hmerges⟩ := mergesGathered_of_distinct (stores_of_ran hran (by decide)) hmany
    (by decide +kernel) (comparable_rat engine.params hybridQuery _) sortsByFusedScore_exchangeSort
  exact ⟨engine, found, shards', hran, hscatter, hmerges⟩

end FtsUring
