import FtsUring.Engine.AsyncText
import FtsUring.Search.PhraseExactness

/-!
# Phrase queries in a thread pool

A query for a phrase of at least two terms takes the 64 best documents with the phrase of every shard. The merge of
the posting lists looks at the newest posting pages alone; as long as the documents with the phrase are there, the
answer consists of the best live documents with the phrase overall.
-/

namespace FtsUring

open Foundation

variable {F : Type} [Double F]

/-! ## One shard -/

/-- The live documents with a phrase. -/
theorem SmallShard.phraseDocuments_eq {updates : List ShardUpdate} (hsmall : SmallShard updates)
    (phrase : List UInt32) : phraseDocuments phrase updates =
      (liveDocuments updates).filter fun entry => entry.1.HasPhrase phrase := by
  rw [phraseDocuments, hsmall.unmarked_all]

/-- The results for the documents with a phrase. -/
def phraseResults (params : Bm25fParams F) (phrase : List UInt32) (updates : List ShardUpdate) :
    List (UnifiedSearchResult F) :=
  (textRanking params).resultsOf (phraseDocuments phrase updates)

/-- The search for a phrase selects the best documents with the phrase. -/
theorem SmallShard.exec_phrase {updates : List ShardUpdate} (hsmall : SmallShard updates) {pages : PageArray}
    (hpages : ShardAt pages (ShardView.fresh.updates updates)) (hlinear : LinearOn fun score : F => 0 < score)
    (hoften : ∀ doc ∈ insertedDocuments updates, ∀ termId, doc.termIds.count termId ≤ maxPositionsPerPosting)
    {phrase : List UInt32} (hphrase : 2 ≤ phrase.length) (hzero : ∀ termId ∈ phrase, termId ≠ 0)
    {params : Bm25fParams F} (hnewest : PhraseOnNewestPages phrase updates params) : ∃ results,
      arrayHandler.exec (shardSearchPhraseIndexed phrase params maxResultsPerShard) pages = some (results, pages) ∧
      IsTopK UnifiedSearchResult.bm25fScore maxResultsPerShard (phraseResults params phrase updates) results := by
  have hcount : ∀ termId, ((insertedDocuments updates).filter fun doc => doc.PostedUnder termId).length ≤
      maxPossiblePostings :=
    fun termId => (List.length_filter_le _ _).trans (hsmall.few.trans (by decide))
  obtain ⟨items, hitems, hsearch⟩ :=
    hpages.searchedPhrase hsmall.fits.le hsmall.terms hoften hcount hphrase hzero params
  have hexact := hitems.trans (perm_filterMap_filter_iff.mpr hnewest)
  -- with room for all results, the search returns the documents that it looks at
  have haddressed := (Indexed.fresh.updates ShardView.valid_fresh hsmall.fits.le).addressed hpages.valid
  set found := (ShardView.fresh.updates updates).found (textRanking params)
    (((ShardView.fresh.updates updates).phrasePostings phrase).filterMap (ShardView.fresh.updates updates).recordOf)
    with hfound
  have hperm : found.Perm (phraseResults params phrase updates) := by
    obtain ⟨results, hresults, hexec⟩ := hsearch (items.length + found.length + 1) (by omega)
    rw [hpages.exec_searchPhrase haddressed phrase params fun _ => Nat.succ_pos _, Option.some.injEq,
      Prod.mk.injEq, ← hfound] at hexec
    have hall : (exchangeSort (textRanking params).key (offerAll (textRanking params).key
        (items.length + found.length + 1) [] found)).Perm found := by
      rw [offerAll_of_room _ (by rw [List.length_nil]; omega)]
      exact perm_exchangeSort _
    rw [hexec.1] at hall
    exact hall.symm.trans (hresults.trans hexact)
  refine ⟨_, hpages.exec_searchPhrase haddressed phrase params fun _ => by decide, ?_⟩
  exact (isTopK_exchangeSort_offerAll hlinear maxResultsPerShard fun result hresult =>
    textRanking_resultsOf_positive params result (hperm.mem_iff.mp hresult)).1.of_perm hperm

/-! ## All shards -/

/-- The nodes and the scores of the documents with a phrase that have a positive score. -/
def phraseScores (params : Bm25fParams F) (phrase : List UInt32) (docs : List Document) :
    List (Vector UInt8 16 × F) :=
  (docs.filter fun doc => doc.HasPhrase phrase ∧ 0 < doc.textScore params).map fun doc =>
    (doc.nodeId, doc.textScore params)

/-- The results of a small shard have the nodes and the scores of its live documents with the phrase. -/
theorem SmallShard.map_nodeScore_phraseResults {updates : List ShardUpdate} (hsmall : SmallShard updates)
    (params : Bm25fParams F) (phrase : List UInt32) :
    (phraseResults params phrase updates).map UnifiedSearchResult.nodeScore =
      phraseScores params phrase ((liveDocuments updates).map Prod.fst) := by
  have hfilter : ((liveDocuments updates).filter fun entry => entry.1.HasPhrase phrase).map Prod.fst =
      ((liveDocuments updates).map Prod.fst).filter fun doc => doc.HasPhrase phrase := by
    rw [List.filter_map]
    rfl
  rw [phraseResults, hsmall.phraseDocuments_eq, textRanking_resultsOf, hfilter, List.filter_filter, List.map_map,
    phraseScores]
  congr 1
  refine List.filter_congr fun doc _ => ?_
  rw [Bool.decide_and, Bool.and_comm]

section Queries

variable {engine : UnifiedEngine F} {query : UnifiedQuery} {distribution : List (List ShardUpdate)}

/-- The answer to a query for a phrase consists of the best live documents of all shards with the phrase, and no
document without the phrase is ever among the results. The shards stay as they are. -/
theorem exists_returnsAsync_phrase (hlinear : LinearOn fun score : F => 0 < score)
    (hholds : List.Forall₂ EngineShard.HoldsAfter engine.shards distribution)
    (hsmall : ∀ updates ∈ distribution, SmallShard updates)
    (hoften : ∀ updates ∈ distribution, ∀ doc ∈ insertedDocuments updates, ∀ termId,
      doc.termIds.count termId ≤ maxPositionsPerPosting)
    (hnewest : ∀ updates ∈ distribution, PhraseOnNewestPages query.termIds updates engine.params)
    (htext : query.useText = true) (hvector : query.useVector = false) (hphrase : query.isPhrase = true)
    (hterms : 2 ≤ query.termIds.length) (hzero : ∀ termId ∈ query.termIds, termId ≠ 0)
    (qsort : List (UnifiedSearchResult F) → List (UnifiedSearchResult F)) (maxResults : ℕ) :
    ∃ results engine', List.Forall₂ EngineShard.HoldsAfter engine'.shards distribution ∧
      (∀ threads, 0 < threads → ReturnsAsync qsort threads engine query maxResults (results, engine')) ∧
      AnswersBest (min maxResults maxResultsPerShard) (phraseScores engine.params query.termIds
        (distribution.flatMap fun updates => (liveDocuments updates).map Prod.fst))
          (results.take maxResultsPerShard) ∧
      ∀ result ∈ results, ∃ updates ∈ distribution, ∃ entry ∈ liveDocuments updates,
        entry.1.HasPhrase query.termIds ∧ entry.1.nodeId = result.nodeId := by
  have hexec : ∀ updates ∈ distribution, ∀ pages, ShardAt pages (ShardView.fresh.updates updates) → ∃ found,
      arrayHandler.exec (searchText engine.params query) pages = some (found, pages) ∧
        IsTopK UnifiedSearchResult.bm25fScore maxResultsPerShard
          (phraseResults engine.params query.termIds updates) found := by
    intro updates hupdates pages hpages
    rw [searchText, if_pos ⟨hphrase, by omega⟩]
    exact (hsmall updates hupdates).exec_phrase hpages hlinear (hoften updates hupdates) hterms hzero
      (hnewest updates hupdates)
  obtain ⟨results, engine', hafter, hreturns, hbest, hmem⟩ := exists_returnsAsync_best hlinear hholds htext hvector
    hexec (fun updates result => textRanking_resultsOf_positive _ result) qsort maxResults
  have hscores : (distribution.flatMap (phraseResults engine.params query.termIds)).map
      UnifiedSearchResult.nodeScore = phraseScores engine.params query.termIds
        (distribution.flatMap fun updates => (liveDocuments updates).map Prod.fst) := by
    rw [List.map_flatMap, phraseScores, List.filter_flatMap, List.map_flatMap]
    exact List.flatMap_congr fun updates hupdates =>
      (hsmall updates hupdates).map_nodeScore_phraseResults engine.params query.termIds
  rw [hscores] at hbest hmem
  refine ⟨results, engine', hafter, hreturns, hbest, fun result hresult => ?_⟩
  obtain ⟨doc, hdoc, hsame⟩ := List.mem_map.mp (hmem result hresult)
  obtain ⟨hdoc, hcounts⟩ := List.mem_filter.mp hdoc
  obtain ⟨updates, hupdates, hlive⟩ := List.mem_flatMap.mp hdoc
  obtain ⟨entry, hentry, rfl⟩ := List.mem_map.mp hlive
  exact ⟨updates, hupdates, entry, hentry, (of_decide_eq_true hcounts).1, congrArg Prod.fst hsame⟩

end Queries

end FtsUring
