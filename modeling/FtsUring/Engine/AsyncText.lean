import FtsUring.Engine.AsyncSearch
import FtsUring.Engine.Inserting

/-!
# Text queries in a thread pool

A text query of at most one term takes the 64 best results of every shard, found through the index, and sorts
them. As long as the shards are so small that the tombstone page tells their documents apart, the answer consists
of the best live documents with the term overall.

The pages of a shard are the same after a search, so this holds however often the shards were searched since the
last call that changed them.
-/

namespace FtsUring

open Foundation

variable {F : Type} [Double F]

/-! ## One shard -/

/-- A result without its fused score and its ranks. -/
def UnifiedSearchResult.nodeScore (result : UnifiedSearchResult F) : Vector UInt8 16 × F :=
  (result.nodeId, result.bm25fScore)

/-- The text score of a document. -/
def Document.textScore (params : Bm25fParams F) (doc : Document) : F := computeBm25fScore doc.tf doc.dl params

/-- The nodes and the scores of the documents with a term that have a positive score. -/
def documentScores (params : Bm25fParams F) (termId : UInt32) (docs : List Document) :
    List (Vector UInt8 16 × F) :=
  (docs.filter fun doc => doc.PostedUnder termId ∧ 0 < doc.textScore params).map fun doc =>
    (doc.nodeId, doc.textScore params)

/-- The results for the documents with a term. -/
def termResults (params : Bm25fParams F) (termId : UInt32) (docs : List Document) : List (UnifiedSearchResult F) :=
  (docs.filter fun doc => doc.PostedUnder termId ∧ 0 < doc.textScore params).map fun doc =>
    textResult doc.nodeId (doc.textScore params)

/-- The results for documents have their nodes and scores. -/
theorem textRanking_resultsOf (params : Bm25fParams F) (entries : List NumberedDocument) :
    (textRanking params).resultsOf entries = ((entries.map Prod.fst).filter fun doc => 0 < doc.textScore params).map
      fun doc => textResult doc.nodeId (doc.textScore params) := by
  induction entries with
  | nil => rfl
  | cons entry entries ih =>
    rw [Ranking.resultsOf] at ih ⊢
    by_cases hpositive : 0 < entry.1.textScore params
    · have hresult : (textRanking params).resultOf (entry.1.record entry.2) =
          some (textResult entry.1.nodeId (entry.1.textScore params)) := if_pos (decide_eq_true hpositive)
      simp only [List.filterMap_cons, hresult, List.map_cons, ih]
      rw [List.filter_cons_of_pos (by exact decide_eq_true hpositive), List.map_cons]
    · have hresult : (textRanking params).resultOf (entry.1.record entry.2) = none :=
        if_neg fun hadmits => hpositive (of_decide_eq_true hadmits)
      simp only [List.filterMap_cons, hresult, List.map_cons, ih]
      rw [List.filter_cons_of_neg (by simpa using hpositive)]

/-- The results for the live documents with a term. -/
theorem resultsOf_postedLive (params : Bm25fParams F) (termId : UInt32) (updates : List ShardUpdate) :
    (textRanking params).resultsOf (postedLive termId updates) =
      termResults params termId ((liveDocuments updates).map Prod.fst) := by
  rw [textRanking_resultsOf, termResults, postedLive, List.filter_map, List.filter_map, List.filter_filter]
  congr 2
  refine List.filter_congr fun entry _ => ?_
  rw [Function.comp_apply, Function.comp_apply, Bool.decide_and, Bool.and_comm]

/-- Their nodes and scores. -/
theorem map_nodeScore_postedLive (params : Bm25fParams F) (termId : UInt32) (updates : List ShardUpdate) :
    ((textRanking params).resultsOf (postedLive termId updates)).map UnifiedSearchResult.nodeScore =
      documentScores params termId ((liveDocuments updates).map Prod.fst) := by
  rw [resultsOf_postedLive, termResults, documentScores, List.map_map]
  rfl

/-- The scores are positive. -/
theorem documentScores_positive {params : Bm25fParams F} {termId : UInt32} {docs : List Document}
    {entry : Vector UInt8 16 × F} (hentry : entry ∈ documentScores params termId docs) : 0 < entry.2 := by
  obtain ⟨doc, hdoc, rfl⟩ := List.mem_map.mp hentry
  exact (of_decide_eq_true (List.mem_filter.mp hdoc).2).2

/-- The nodes of results are those of documents. -/
theorem map_nodeId_resultsOf_sublist (params : Bm25fParams F) (entries : List NumberedDocument) :
    (((textRanking params).resultsOf entries).map UnifiedSearchResult.nodeId).Sublist
      (entries.map fun entry => entry.1.nodeId) := by
  have hrecords := @map_nodeId_sublist F _ (textRanking params) (fun _ _ => rfl)
    (entries.map fun entry => entry.1.record entry.2)
  rwa [List.filterMap_map, List.map_map] at hrecords

/-- An indexed search of a small shard selects the best live documents with the term. -/
theorem SmallShard.exec_indexed {updates : List ShardUpdate} (hsmall : SmallShard updates) {pages : PageArray}
    (hpages : ShardAt pages (ShardView.fresh.updates updates))
    (hlinear : LinearOn fun score : F => 0 < score) (termId : UInt32)
    (params : Bm25fParams F) : ∃ results,
      arrayHandler.exec (shardSearchBm25fIndexed termId params maxResultsPerShard) pages =
        some (results, pages) ∧
      IsTopK UnifiedSearchResult.bm25fScore maxResultsPerShard
        ((textRanking params).resultsOf (postedLive termId updates)) results := by
  obtain ⟨items, hitems, hexec⟩ := (hsmall.searched hpages).indexed termId params
  have hperm := hitems (hsmall.indexed_room termId)
  rw [hsmall.unmarked_indexed] at hperm
  have hnumbers : ∀ result ∈ items, 0 < result.bm25fScore := fun result hresult =>
    textRanking_resultsOf_positive params result (hperm.mem_iff.mp hresult)
  refine ⟨_, hexec (by decide), ?_⟩
  exact (isTopK_exchangeSort_offerAll hlinear maxResultsPerShard hnumbers).1.of_perm hperm

/-- Results of different nodes are accumulated one after the other. -/
theorem foldl_accumulateResult_of_nodup {found : List (UnifiedSearchResult F)}
    (hnodup : (found.map UnifiedSearchResult.nodeId).Nodup) (hroom : found.length ≤ maxResultsPerShard) :
    found.foldl accumulateResult [] = found := by
  induction found using List.reverseRecOn with
  | nil => rfl
  | append_singleton found result ih =>
    rw [List.map_append] at hnodup
    rw [List.length_append, List.length_singleton] at hroom
    rw [List.foldl_append, ih hnodup.of_append_left (by omega), List.foldl_cons, List.foldl_nil, accumulateResult]
    have hnone : found.findIdx? (fun other => other.nodeId = result.nodeId) = none := by
      rw [List.findIdx?_eq_none_iff]
      intro other hother
      refine decide_eq_false fun hsame => ?_
      rw [List.nodup_append] at hnodup
      exact hnodup.2.2 _ (List.mem_map_of_mem hother) _ List.mem_cons_self hsame
    rw [hnone]
    exact if_pos (by omega)

/-- The text search of a query of at most one term. -/
theorem exec_searchText_oneTerm {params : Bm25fParams F} {query : UnifiedQuery} (hterms : query.termIds.length ≤ 1)
    {pages : PageArray} {results : List (UnifiedSearchResult F)}
    (hexec : arrayHandler.exec (shardSearchBm25fIndexed (query.termIds.headD 0) params maxResultsPerShard) pages =
      some (results, pages))
    (hnodup : (results.map UnifiedSearchResult.nodeId).Nodup) (hroom : results.length ≤ maxResultsPerShard) :
    arrayHandler.exec (searchText params query) pages = some (results, pages) := by
  rw [searchText]
  cases hquery : query.termIds with
  | nil =>
    rw [hquery] at hexec
    simpa using hexec
  | cons termId others =>
    rw [hquery, List.length_cons] at hterms
    rw [List.length_eq_zero_iff.mp (show others.length = 0 by omega)] at hquery ⊢
    rw [hquery] at hexec
    change arrayHandler.exec (shardSearchBm25fIndexed termId params maxResultsPerShard) pages = _ at hexec
    by_cases hphrase : query.isPhrase
    · simpa [hphrase, shardSearchPhraseIndexed] using hexec
    · have hterm : searchTerms params [termId] = do
          let found ← shardSearchBm25fIndexed termId params maxResultsPerShard
          return found.foldl accumulateResult [] := bind_pure _
      simp only [hphrase, Bool.false_eq_true, false_and, if_false, List.length_singleton, Nat.zero_lt_one, if_true]
      rw [hterm, Handler.exec_bind_of_eq _ hexec, foldl_accumulateResult_of_nodup hnodup hroom]
      rfl

/-- A fold of searches that leave the pages as they are. -/
theorem exists_exec_foldlM {α β : Type} {search : β → α → PageProgram β} {pages : PageArray} {items : List α}
    (hsearch : ∀ found, ∀ item ∈ items, ∃ found',
      arrayHandler.exec (search found item) pages = some (found', pages)) (start : β) :
    ∃ found, arrayHandler.exec (items.foldlM search start) pages = some (found, pages) := by
  induction items generalizing start with
  | nil => exact ⟨start, rfl⟩
  | cons item items ih =>
    obtain ⟨next, hnext⟩ := hsearch start item List.mem_cons_self
    obtain ⟨found, hfound⟩ :=
      ih (fun found other hother => hsearch found other (List.mem_cons_of_mem _ hother)) next
    refine ⟨found, ?_⟩
    rw [List.foldlM_cons, Handler.exec_bind_of_eq _ hnext, hfound]

/-- Every text search of a small shard comes back, and the pages stay as they are. -/
theorem SmallShard.exists_exec_searchText {updates : List ShardUpdate} (hsmall : SmallShard updates) {pages : PageArray}
    (hpages : ShardAt pages (ShardView.fresh.updates updates)) (params : Bm25fParams F) (query : UnifiedQuery) :
    ∃ results, arrayHandler.exec (searchText params query) pages = some (results, pages) := by
  have hterm : ∀ termId, ∃ results,
      arrayHandler.exec (shardSearchBm25fIndexed termId params maxResultsPerShard) pages = some (results, pages) := by
    intro termId
    obtain ⟨items, -, hexec⟩ := (hsmall.searched hpages).indexed termId params
    exact ⟨_, hexec (by decide)⟩
  rw [searchText]
  split_ifs
  · have hindexed := Indexed.fresh.updates ShardView.valid_fresh hsmall.fits.le
    exact ⟨_, hpages.exec_searchPhrase (hindexed.addressed hpages.valid) query.termIds params fun _ => by decide⟩
  · refine exists_exec_foldlM (fun found termId _ => ?_) []
    obtain ⟨results, hresults⟩ := hterm termId
    exact ⟨results.foldl accumulateResult found, (Handler.exec_bind_of_eq _ hresults _).trans rfl⟩
  · exact hterm 0

/-- The work of a small shard comes back for every query, and the pages stay as they are. -/
theorem SmallShard.exists_exec_shardSearchWorkCb {updates : List ShardUpdate} (hsmall : SmallShard updates)
    {pages : PageArray} (hpages : ShardAt pages (ShardView.fresh.updates updates)) (params : Bm25fParams F)
    (query : UnifiedQuery) :
    ∃ results, arrayHandler.exec (shardSearchWorkCb params query) pages = some (results, pages) := by
  obtain ⟨text, htext⟩ := hsmall.exists_exec_searchText hpages params query
  have hvec := (hsmall.searched hpages).scan (F := F) (vectorRanking query.queryEmbedding)
    (show 0 < maxResultsPerShard by decide)
  change arrayHandler.exec (shardSearchVector query.queryEmbedding maxResultsPerShard) pages = _ at hvec
  rw [shardSearchWorkCb]
  cases query.useText <;> cases query.useVector <;>
    simp only [if_true, Bool.false_eq_true, if_false, and_true, and_false, pure_bind]
  · exact ⟨_, rfl⟩
  · exact ⟨_, (Handler.exec_bind_of_eq _ hvec _).trans rfl⟩
  · exact ⟨_, (Handler.exec_bind_of_eq _ htext _).trans rfl⟩
  · rw [Handler.exec_bind_of_eq _ htext]
    exact ⟨_, (Handler.exec_bind_of_eq _ hvec _).trans rfl⟩

/-! ## All shards -/

/-- The results have the best scores, in descending order. -/
structure AnswersBest (limit : ℕ) (scored : List (Vector UInt8 16 × F)) (results : List (UnifiedSearchResult F)) :
    Prop where
  best : IsTopK Prod.snd limit scored (results.map UnifiedSearchResult.nodeScore)
  sorted : results.Pairwise fun a b => ¬a.bm25fScore < b.bm25fScore

/-- The order of the items does not matter. -/
theorem AnswersBest.of_perm {limit : ℕ} {scored scored' : List (Vector UInt8 16 × F)}
    {results : List (UnifiedSearchResult F)} (h : AnswersBest limit scored results) (hperm : scored.Perm scored') :
    AnswersBest limit scored' results :=
  ⟨h.best.of_perm hperm, h.sorted⟩

/-- The scores of the best results are determined. -/
theorem AnswersBest.scores_eq (hlinear : LinearOn fun score : F => 0 < score) {limit : ℕ}
    {scored : List (Vector UInt8 16 × F)} {results results' : List (UnifiedSearchResult F)}
    (h : AnswersBest limit scored results) (h' : AnswersBest limit scored results')
    (hpositive : ∀ entry ∈ scored, 0 < entry.2) :
    results.map UnifiedSearchResult.bm25fScore = results'.map UnifiedSearchResult.bm25fScore := by
  have hsorted : ∀ {found : List (UnifiedSearchResult F)},
      (found.Pairwise fun a b => ¬a.bm25fScore < b.bm25fScore) →
        (found.map UnifiedSearchResult.nodeScore).Pairwise fun a b => ¬a.2 < b.2 :=
    fun hfound => List.pairwise_map.mpr hfound
  have hkeys := h.best.keys_eq hlinear h'.best hpositive (hsorted h.sorted) (hsorted h'.sorted)
  rwa [List.map_map, List.map_map] at hkeys

/-- A text query sorts what the shards return. -/
theorem fuseGathered_text (hlinear : LinearOn fun score : F => 0 < score)
    (qsort : List (UnifiedSearchResult F) → List (UnifiedSearchResult F)) {query : UnifiedQuery}
    (htext : query.useText = true) (hvector : query.useVector = false) {gathered : List (UnifiedSearchResult F)}
    (hpositive : ∀ result ∈ gathered, 0 < result.bm25fScore) :
    ((fuseGathered qsort query gathered).map UnifiedSearchResult.nodeScore).Perm
        (gathered.map UnifiedSearchResult.nodeScore) ∧
      (fuseGathered qsort query gathered).Pairwise fun a b => ¬a.bm25fScore < b.bm25fScore := by
  have hall : gathered.filter (isTextResult query) = gathered := by
    rw [List.filter_eq_self]
    intro result hresult
    rw [isTextResult, htext, decide_eq_true (hpositive result hresult), Bool.and_self]
  have hnone : gathered.filter (isVectorResult query) = [] := by
    rw [List.filter_eq_nil_iff]
    intro result _ hresult
    rw [isVectorResult, hvector, Bool.false_and, Bool.and_false] at hresult
    exact Bool.false_ne_true hresult
  rw [fuseGathered, hall, hnone]
  simp only [fuseResults, htext, hvector, Bool.false_eq_true, and_false, if_false, if_true, List.foldl_nil]
  have hranked : ((rankText gathered).map UnifiedSearchResult.nodeScore).Perm
      (gathered.map UnifiedSearchResult.nodeScore) := by
    have hpairs := map_rankText_pair gathered
    change (rankText gathered).map UnifiedSearchResult.nodeScore = _ at hpairs
    rw [hpairs]
    exact (perm_exchangeSort gathered).map _
  refine ⟨((perm_exchangeSort _).map _).trans hranked, pairwise_exchangeSort hlinear fun result hresult => ?_⟩
  have hmem := hranked.mem_iff.mp (List.mem_map_of_mem hresult)
  obtain ⟨other, hother, hsame⟩ := List.mem_map.mp hmem
  have hscore : other.bm25fScore = result.bm25fScore := congrArg Prod.snd hsame
  rw [← hscore]
  exact hpositive other hother

/-- The work of a shard for a text query. -/
theorem shardSearchWorkCb_text {query : UnifiedQuery} (htext : query.useText = true)
    (hvector : query.useVector = false) (params : Bm25fParams F) :
    shardSearchWorkCb params query =
      (fun found => found.map fun result => { result with rrfScore := result.bm25fScore }) <$>
        searchText params query := by
  simp only [shardSearchWorkCb, htext, hvector, if_true, Bool.false_eq_true, and_false, if_false, pure_bind,
    map_eq_pure_bind]

section Queries

variable {engine : UnifiedEngine F} {query : UnifiedQuery} {distribution : List (List ShardUpdate)}
  {qsort : List (UnifiedSearchResult F) → List (UnifiedSearchResult F)}

/-- The answer to a text query is made of what the shards find. -/
theorem exists_returnsAsync_text (hlinear : LinearOn fun score : F => 0 < score)
    (hholds : List.Forall₂ EngineShard.HoldsAfter engine.shards distribution) (htext : query.useText = true)
    (hvector : query.useVector = false) {good : List ShardUpdate → List (UnifiedSearchResult F) → Prop}
    (hexec : ∀ updates ∈ distribution, ∀ pages, ShardAt pages (ShardView.fresh.updates updates) → ∃ found,
      arrayHandler.exec (searchText engine.params query) pages = some (found, pages) ∧ good updates found)
    (hpositive : ∀ updates found, good updates found → ∀ result ∈ found, 0 < result.bm25fScore)
    (qsort : List (UnifiedSearchResult F) → List (UnifiedSearchResult F)) :
    ∃ (found : List (List (UnifiedSearchResult F))) (fused : List (UnifiedSearchResult F))
        (engine' : UnifiedEngine F), List.Forall₂ good distribution found ∧
      (fused.map UnifiedSearchResult.nodeScore).Perm (found.flatten.map UnifiedSearchResult.nodeScore) ∧
      (fused.Pairwise fun a b => ¬a.bm25fScore < b.bm25fScore) ∧
      List.Forall₂ EngineShard.HoldsAfter engine'.shards distribution ∧
      ∀ threads, 0 < threads → ∀ maxResults,
        ReturnsAsync qsort threads engine query maxResults (fused.take maxResults, engine') := by
  obtain ⟨found, shards', hscatter, hgood, hafter⟩ := exists_scatter_holds hholds hexec
  have hwork := scatter_map (shardSearchWorkCb_text htext hvector engine.params) hscatter
  set gathered := (found.map fun results => results.map fun result =>
    { result with rrfScore := result.bm25fScore }).flatten with hgathered
  have hscores : gathered.map UnifiedSearchResult.nodeScore = found.flatten.map UnifiedSearchResult.nodeScore := by
    rw [hgathered, List.map_flatten, List.map_flatten, List.map_map]
    congr 1
    refine List.map_congr_left fun results _ => ?_
    rw [Function.comp_apply, List.map_map]
    rfl
  have hall : ∀ result ∈ gathered, 0 < result.bm25fScore := by
    intro result hresult
    have hmem : result.nodeScore ∈ found.flatten.map UnifiedSearchResult.nodeScore :=
      hscores ▸ List.mem_map_of_mem hresult
    obtain ⟨other, hother, hsame⟩ := List.mem_map.mp hmem
    obtain ⟨results, hresults, hin⟩ := List.mem_flatten.mp hother
    obtain ⟨updates, -, hgoodResults⟩ := exists_mem_of_forall₂ hgood hresults
    have hscore : other.bm25fScore = result.bm25fScore := congrArg Prod.snd hsame
    rw [← hscore]
    exact hpositive updates results hgoodResults other hin
  obtain ⟨hperm, hsorted⟩ := fuseGathered_text hlinear qsort htext hvector hall
  exact ⟨found, _, { engine with shards := shards' }, hgood, hscores ▸ hperm, hsorted, hafter,
    fun _ hthreads => returnsAsync_of_scatter qsort hthreads hwork⟩

/-- Every query has an answer, and the shards stay as they are. -/
theorem exists_returnsAsync_holds (hholds : List.Forall₂ EngineShard.HoldsAfter engine.shards distribution)
    (hsmall : ∀ updates ∈ distribution, SmallShard updates)
    (qsort : List (UnifiedSearchResult F) → List (UnifiedSearchResult F)) (maxResults : ℕ) :
    ∃ results shards', (∀ threads, 0 < threads → ReturnsAsync qsort threads engine query maxResults
        (results, { engine with shards := shards' })) ∧
      List.Forall₂ EngineShard.HoldsAfter shards' distribution ∧
      shards'.map EngineShard.shard = engine.shards.map EngineShard.shard := by
  have hexec : ∀ updates ∈ distribution, ∀ pages, ShardAt pages (ShardView.fresh.updates updates) → ∃ found,
      arrayHandler.exec (shardSearchWorkCb engine.params query) pages = some (found, pages) ∧ True := by
    intro updates hupdates pages hpages
    obtain ⟨found, hfound⟩ := (hsmall updates hupdates).exists_exec_shardSearchWorkCb hpages engine.params query
    exact ⟨found, hfound, trivial⟩
  obtain ⟨found, shards', hscatter, -, hafter⟩ :=
    @exists_scatter_holds F _ _ (fun _ _ => True) _ _ hholds hexec
  exact ⟨_, shards', fun _ hthreads => returnsAsync_of_scatter qsort hthreads hscatter maxResults, hafter,
    map_shard_scatter hscatter⟩

/-- The nodes and the scores of the live documents of all shards with a term. -/
def liveScores (params : Bm25fParams F) (termId : UInt32) (distribution : List (List ShardUpdate)) :
    List (Vector UInt8 16 × F) :=
  documentScores params termId (distribution.flatMap fun updates => (liveDocuments updates).map Prod.fst)

/-- The live documents of all shards are those of each shard. -/
theorem liveScores_eq (params : Bm25fParams F) (termId : UInt32) (distribution : List (List ShardUpdate)) :
    liveScores params termId distribution = (distribution.map fun updates =>
      documentScores params termId ((liveDocuments updates).map Prod.fst)).flatten := by
  rw [liveScores, documentScores, List.filter_flatMap, List.map_flatMap, List.flatMap_def]
  rfl

/-- When every shard finds its best items, the answer consists of the best items of all shards. -/
theorem exists_returnsAsync_best (hlinear : LinearOn fun score : F => 0 < score)
    (hholds : List.Forall₂ EngineShard.HoldsAfter engine.shards distribution) (htext : query.useText = true)
    (hvector : query.useVector = false) {items : List ShardUpdate → List (UnifiedSearchResult F)}
    (hexec : ∀ updates ∈ distribution, ∀ pages, ShardAt pages (ShardView.fresh.updates updates) → ∃ found,
      arrayHandler.exec (searchText engine.params query) pages = some (found, pages) ∧
        IsTopK UnifiedSearchResult.bm25fScore maxResultsPerShard (items updates) found)
    (hpositive : ∀ updates, ∀ result ∈ items updates, 0 < result.bm25fScore)
    (qsort : List (UnifiedSearchResult F) → List (UnifiedSearchResult F)) (maxResults : ℕ) :
    ∃ results engine', List.Forall₂ EngineShard.HoldsAfter engine'.shards distribution ∧
      (∀ threads, 0 < threads → ReturnsAsync qsort threads engine query maxResults (results, engine')) ∧
      AnswersBest (min maxResults maxResultsPerShard)
        ((distribution.flatMap items).map UnifiedSearchResult.nodeScore) (results.take maxResultsPerShard) ∧
      ∀ result ∈ results, result.nodeScore ∈ (distribution.flatMap items).map UnifiedSearchResult.nodeScore := by
  obtain ⟨found, fused, engine', hgood, hperm, hsorted, hafter, hreturns⟩ :=
    exists_returnsAsync_text hlinear hholds htext hvector hexec
      (fun updates found htop result hresult => hpositive updates result (htop.mem hresult)) qsort
  have hflatten : found.flatten.map UnifiedSearchResult.nodeScore =
      (found.map fun results => results.map UnifiedSearchResult.nodeScore).flatten := List.map_flatten
  have hall : (distribution.flatMap items).map UnifiedSearchResult.nodeScore =
      (distribution.map fun updates => (items updates).map UnifiedSearchResult.nodeScore).flatten := List.map_flatMap
  refine ⟨fused.take maxResults, engine', hafter,
    fun threads hthreads => hreturns threads hthreads maxResults, ⟨?_, ?_⟩, ?_⟩
  · rw [List.take_take, min_comm maxResultsPerShard]
    have htake : IsTopK Prod.snd (min maxResults maxResultsPerShard) (fused.map UnifiedSearchResult.nodeScore)
        ((fused.take (min maxResults maxResultsPerShard)).map UnifiedSearchResult.nodeScore) :=
      (isTopK_take_of_pairwise hsorted _).map UnifiedSearchResult.nodeScore fun _ => rfl
    -- the best of what the shards found are the best of all
    have hparts : List.Forall₂ (IsTopK Prod.snd maxResultsPerShard)
        (distribution.map fun updates => (items updates).map UnifiedSearchResult.nodeScore)
        (found.map fun results => results.map UnifiedSearchResult.nodeScore) := by
      rw [List.forall₂_map_left_iff, List.forall₂_map_right_iff]
      exact hgood.imp fun updates results htop => htop.map _ fun _ => rfl
    rw [hflatten] at hperm
    rw [hall]
    refine IsTopK.flatten hlinear (min_le_right _ _) hparts (htake.of_perm hperm) ?_
    intro entry hentry
    obtain ⟨scores, hscores, hin⟩ := List.mem_flatten.mp hentry
    obtain ⟨updates, -, rfl⟩ := List.mem_map.mp hscores
    obtain ⟨result, hresult, rfl⟩ := List.mem_map.mp hin
    exact hpositive updates result hresult
  · exact (hsorted.sublist (List.take_sublist _ _)).sublist (List.take_sublist _ _)
  · intro result hresult
    have hmem := hperm.mem_iff.mp (List.mem_map_of_mem (List.mem_of_mem_take hresult))
    obtain ⟨other, hother, hsame⟩ := List.mem_map.mp hmem
    obtain ⟨results, hresults, hin⟩ := List.mem_flatten.mp hother
    obtain ⟨updates, hupdates, htop⟩ := exists_mem_of_forall₂ hgood hresults
    rw [← hsame]
    exact List.mem_map_of_mem (List.mem_flatMap.mpr ⟨updates, hupdates, htop.mem hin⟩)

/-- A text query of at most one term returns the best live documents with the term, or the best ones of all for
a query without terms. -/
theorem exists_returnsAsync_oneTerm (hlinear : LinearOn fun score : F => 0 < score)
    (hholds : List.Forall₂ EngineShard.HoldsAfter engine.shards distribution)
    (hsmall : ∀ updates ∈ distribution, SmallShard updates)
    (hnodes : ∀ updates ∈ distribution, ((liveDocuments updates).map fun entry => entry.1.nodeId).Nodup)
    (htext : query.useText = true) (hvector : query.useVector = false) (hterms : query.termIds.length ≤ 1)
    (qsort : List (UnifiedSearchResult F) → List (UnifiedSearchResult F)) (maxResults : ℕ) :
    ∃ results engine', List.Forall₂ EngineShard.HoldsAfter engine'.shards distribution ∧
      (∀ threads, 0 < threads → ReturnsAsync qsort threads engine query maxResults (results, engine')) ∧
      AnswersBest (min maxResults maxResultsPerShard) (liveScores engine.params (query.termIds.headD 0) distribution)
        (results.take maxResultsPerShard) := by
  have hexec : ∀ updates ∈ distribution, ∀ pages, ShardAt pages (ShardView.fresh.updates updates) → ∃ found,
      arrayHandler.exec (searchText engine.params query) pages = some (found, pages) ∧
        IsTopK UnifiedSearchResult.bm25fScore maxResultsPerShard
          ((textRanking engine.params).resultsOf (postedLive (query.termIds.headD 0) updates)) found := by
    intro updates hupdates pages hpages
    obtain ⟨results, hresults, htop⟩ := (hsmall updates hupdates).exec_indexed hpages hlinear
      (query.termIds.headD 0) engine.params
    refine ⟨results, exec_searchText_oneTerm hterms hresults ?_ ?_, htop⟩
    · obtain ⟨rejected, hperm, -, -⟩ := htop
      have hall : (((textRanking engine.params).resultsOf
          (postedLive (query.termIds.headD 0) updates)).map UnifiedSearchResult.nodeId).Nodup :=
        (hnodes updates hupdates).sublist
          ((map_nodeId_resultsOf_sublist _ _).trans (List.filter_sublist.map _))
      rw [← (hperm.map _).nodup_iff, List.map_append] at hall
      exact hall.of_append_left
    · obtain ⟨-, -, hlength, -⟩ := htop
      rw [hlength]
      exact min_le_left _ _
  obtain ⟨results, engine', hafter, hreturns, hbest, -⟩ :=
    exists_returnsAsync_best hlinear hholds htext hvector hexec
    (fun updates result => textRanking_resultsOf_positive _ result) qsort maxResults
  have hscores : (distribution.flatMap fun updates => (textRanking engine.params).resultsOf
      (postedLive (query.termIds.headD 0) updates)).map UnifiedSearchResult.nodeScore =
        liveScores engine.params (query.termIds.headD 0) distribution := by
    rw [liveScores_eq, List.map_flatMap, List.flatMap_def]
    simp only [map_nodeScore_postedLive]
  rw [hscores] at hbest
  exact ⟨results, engine', hafter, hreturns, hbest⟩

end Queries

/-- What a text query of at most one term answers depends on the live documents only. Two engines with the same
live documents, whatever their shards, their calls before and their threads do, answer with the same scores, which
are the best ones. -/
theorem engineSearchAsync_oneTerm (hlinear : LinearOn fun score : F => 0 < score)
    {engine other : UnifiedEngine F} {distribution otherDistribution : List (List ShardUpdate)}
    (hholds : List.Forall₂ EngineShard.HoldsAfter engine.shards distribution)
    (hholds' : List.Forall₂ EngineShard.HoldsAfter other.shards otherDistribution)
    (hsmall : ∀ updates ∈ distribution ++ otherDistribution, SmallShard updates)
    (hnodes : ∀ updates ∈ distribution ++ otherDistribution,
      ((liveDocuments updates).map fun entry => entry.1.nodeId).Nodup)
    (hlive : (distribution.flatMap fun updates => (liveDocuments updates).map Prod.fst).Perm
      (otherDistribution.flatMap fun updates => (liveDocuments updates).map Prod.fst))
    (hparams : engine.params = other.params) {query : UnifiedQuery} (htext : query.useText = true)
    (hvector : query.useVector = false) (hterms : query.termIds.length ≤ 1)
    (qsort : List (UnifiedSearchResult F) → List (UnifiedSearchResult F)) (maxResults : ℕ) :
    ∃ results results' engine' other',
      (∀ threads, 0 < threads → ReturnsAsync qsort threads engine query maxResults (results, engine')) ∧
      (∀ threads, 0 < threads → ReturnsAsync qsort threads other query maxResults (results', other')) ∧
      AnswersBest (min maxResults maxResultsPerShard)
        (liveScores engine.params (query.termIds.headD 0) distribution) (results.take maxResultsPerShard) ∧
      (results'.take maxResultsPerShard).map UnifiedSearchResult.bm25fScore =
        (results.take maxResultsPerShard).map UnifiedSearchResult.bm25fScore := by
  obtain ⟨results, engine', -, hreturns, hbest⟩ := exists_returnsAsync_oneTerm hlinear hholds
    (fun updates hupdates => hsmall updates (List.mem_append_left _ hupdates))
    (fun updates hupdates => hnodes updates (List.mem_append_left _ hupdates)) htext hvector hterms qsort maxResults
  obtain ⟨results', other', -, hreturns', hbest'⟩ := exists_returnsAsync_oneTerm hlinear hholds'
    (fun updates hupdates => hsmall updates (List.mem_append_right _ hupdates))
    (fun updates hupdates => hnodes updates (List.mem_append_right _ hupdates)) htext hvector hterms qsort maxResults
  refine ⟨results, results', engine', other', hreturns, hreturns', hbest, ?_⟩
  have hscores : (liveScores other.params (query.termIds.headD 0) otherDistribution).Perm
      (liveScores engine.params (query.termIds.headD 0) distribution) := by
    rw [← hparams]
    exact ((hlive.symm.filter _).map _)
  exact (hbest'.of_perm hscores).scores_eq hlinear hbest fun entry => documentScores_positive

/-- Two documents in one shard, and in two shards after they were inserted the other way round. -/
theorem engineSearchAsync_oneTerm_two_documents : ∃ engine other : UnifiedEngine ℚ,
    engine.shards.length = 1 ∧ other.shards.length = 2 ∧ ∃ results results' engine' other',
      (∀ threads, 0 < threads → ReturnsAsync id threads engine textQuery 10 (results, engine')) ∧
      (∀ threads, 0 < threads → ReturnsAsync id threads other textQuery 10 (results', other')) ∧
      AnswersBest 10 (liveScores engine.params 7 (routed 1 twoDocuments)) (results.take maxResultsPerShard) ∧
      (results'.take maxResultsPerShard).map UnifiedSearchResult.bm25fScore =
        (results.take maxResultsPerShard).map UnifiedSearchResult.bm25fScore := by
  have hdocs := twoDocuments.reverse_perm
  have hsmall : ∀ numShards, ∀ updates ∈ routed numShards twoDocuments, SmallShard updates :=
    fun numShards => smallShard_routed (by decide) (by decide)
  have hsmall' : ∀ numShards, ∀ updates ∈ routed numShards twoDocuments.reverse, SmallShard updates :=
    fun numShards => smallShard_routed (by decide) (by decide)
  obtain ⟨-, engine, -, -, -, -, hparams, hholds⟩ :=
    @exists_engine_inserted ℚ _ oneNewShard (List.cons_ne_nil _ _)
    isNew_oneNewShard 0 (by decide) _ (hsmall 1)
  obtain ⟨-, other, -, -, -, -, hparams', hholds'⟩ :=
    @exists_engine_inserted ℚ _ twoNewShards (List.cons_ne_nil _ _)
    isNew_twoNewShards 0 (by decide) _ (hsmall' 2)
  refine ⟨engine, other, hholds.length_eq.trans (length_routed _ _), hholds'.length_eq.trans (length_routed _ _),
    engineSearchAsync_oneTerm (linearOn_rat _) hholds hholds' ?_ ?_ ?_ (hparams.trans hparams'.symm) rfl rfl
      (by decide) id 10⟩
  · exact List.forall_mem_append.mpr ⟨hsmall 1, hsmall' 2⟩
  · exact List.forall_mem_append.mpr ⟨nodup_nodeId_routed (by decide), nodup_nodeId_routed (by decide)⟩
  · exact ((flatMap_liveDocuments_routed_perm Nat.one_pos _).trans hdocs.symm).trans
      (flatMap_liveDocuments_routed_perm Nat.two_pos _).symm

end FtsUring
