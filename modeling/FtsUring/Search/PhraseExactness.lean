import FtsUring.Search.PhraseSearch

/-!
# When the search of a phrase is exact

A posting list is read from the newest posting page on, so it is ascending only on each page, and the merge of
the lists meets a document only if its postings are on the newest pages of all terms of the phrase. The search
therefore returns every live document with the phrase exactly when all of them that have a result are there.
-/

namespace FtsUring

open Foundation

/-! ## The documents with a phrase -/

/-- The documents with a phrase that the tombstone page does not mark. -/
def phraseDocuments (phrase : List UInt32) (updates : List ShardUpdate) : List NumberedDocument :=
  (unmarkedDocuments updates (numberedDocuments (insertedDocuments updates))).filter fun entry =>
    entry.1.HasPhrase phrase

/-- The documents whose postings are on the newest posting page of a term. -/
def newestHolders (termId : UInt32) (updates : List ShardUpdate) : List NumberedDocument :=
  let posted := (numberedDocuments (insertedDocuments updates)).filter fun entry => entry.1.PostedUnder termId
  posted.drop (PageChain.filledBefore maxPostingsPerPage posted.length)

/-- The document is on the newest posting pages of all terms. -/
def OnNewestPages (termIds : List UInt32) (updates : List ShardUpdate) (docId : UInt32) : Prop :=
  ∀ termId ∈ termIds, docId ∈ (newestHolders termId updates).map Prod.snd

instance (termIds : List UInt32) (updates : List ShardUpdate) (docId : UInt32) :
    Decidable (OnNewestPages termIds updates docId) :=
  List.decidableBAll _ termIds

variable {F : Type} [Double F]

/-- The documents with a phrase that have a result are on the newest posting pages of all terms of the phrase. -/
def PhraseOnNewestPages (phrase : List UInt32) (updates : List ShardUpdate) (params : Bm25fParams F) : Prop :=
  ∀ entry ∈ phraseDocuments phrase updates, ((textRanking params).resultOf (entry.1.record entry.2)).isSome →
    OnNewestPages phrase updates entry.2

/-- The numbered document of a stored one. -/
def StoredDocument.numbered (entry : StoredDocument) : NumberedDocument := (entry.doc, entry.docId)

section Numbered

variable {updates : List ShardUpdate} {stored : List StoredDocument}

/-- The inserted documents have different ids as long as the counter does not wrap. -/
theorem nodup_ids_numberedDocuments {docs : List Document} (hcount : docs.length ≤ 2 ^ 32) :
    ((numberedDocuments docs).map Prod.snd).Nodup := by
  have hplaces : (docs.map fun _ => (0, 0)).length = docs.length := List.length_map _
  have hids := ascendingIds_storedDocuments hplaces.symm hcount
  have hnumbered : ((storedDocuments docs (docs.map fun _ => (0, 0))).map fun entry =>
      (entry.doc, entry.docId)) = numberedDocuments docs := map_storedDocuments hplaces.symm
  rw [← hnumbered, List.map_map, List.Nodup, List.pairwise_map]
  exact hids.imp fun hlt hsame => hlt.ne (congrArg UInt32.toNat hsame)

/-- The documents on the newest page of a term are some of the inserted ones. -/
theorem newestHolders_sublist (termId : UInt32) (updates : List ShardUpdate) :
    (newestHolders termId updates).Sublist (numberedDocuments (insertedDocuments updates)) :=
  (List.drop_sublist _ _).trans List.filter_sublist

/-- The documents that were posted under a term, with and without their places. -/
theorem map_postedDocuments (termId : UInt32)
    (hstored : stored.map StoredDocument.numbered = numberedDocuments (insertedDocuments updates)) :
    (postedDocuments termId stored).map StoredDocument.numbered =
      (numberedDocuments (insertedDocuments updates)).filter fun entry => entry.1.PostedUnder termId := by
  rw [← hstored, List.filter_map]
  rfl

/-- There are as many as documents with the term. -/
theorem length_postedDocuments (termId : UInt32)
    (hstored : stored.map StoredDocument.numbered = numberedDocuments (insertedDocuments updates)) :
    (postedDocuments termId stored).length =
      ((insertedDocuments updates).filter fun doc => doc.PostedUnder termId).length := by
  have hdocs : (numberedDocuments (insertedDocuments updates)).map Prod.fst = insertedDocuments updates := by
    rw [numberedDocuments, List.map_map]
    exact List.zipIdx_map_fst 0 _
  have hlength := congrArg List.length (map_postedDocuments termId hstored)
  rw [List.length_map] at hlength
  rw [hlength]
  conv_rhs => rw [← hdocs, List.filter_map, List.length_map]
  rfl

/-- The documents on the newest page, with and without their places. -/
theorem map_newestDocuments (termId : UInt32)
    (hstored : stored.map StoredDocument.numbered = numberedDocuments (insertedDocuments updates)) :
    (newestDocuments termId stored).map StoredDocument.numbered = newestHolders termId updates := by
  have hposted := map_postedDocuments termId hstored
  have hlength := congrArg List.length hposted
  rw [List.length_map] at hlength
  rw [newestDocuments, List.map_drop, hposted, hlength]
  rfl

/-- The ids of the documents on the newest page. -/
theorem map_docId_newestDocuments (termId : UInt32)
    (hstored : stored.map StoredDocument.numbered = numberedDocuments (insertedDocuments updates)) :
    (newestDocuments termId stored).map StoredDocument.docId = (newestHolders termId updates).map Prod.snd := by
  rw [← map_newestDocuments termId hstored, List.map_map]
  rfl

/-- The documents that a search looks at are those with the phrase on the newest pages. -/
theorem perm_map_foundDocuments (first : UInt32) (terms : List UInt32)
    (hstored : stored.map StoredDocument.numbered = numberedDocuments (insertedDocuments updates))
    (hcount : (insertedDocuments updates).length ≤ 2 ^ 32) :
    ((foundDocuments first terms stored).map StoredDocument.numbered).Perm
      (((numberedDocuments (insertedDocuments updates)).filter fun entry =>
        entry.1.HasPhrase (first :: terms)).filter fun entry => OnNewestPages (first :: terms) updates entry.2) := by
  have hids := nodup_ids_numberedDocuments hcount
  have hnodup := hids.of_map
  have hsub := newestHolders_sublist first updates
  have hfound : (foundDocuments first terms stored).map StoredDocument.numbered =
      (newestHolders first updates).filter fun entry =>
        OnNewestPages terms updates entry.2 ∧ entry.1.HasPhrase (first :: terms) := by
    rw [← map_newestDocuments first hstored, List.filter_map, foundDocuments]
    refine congrArg _ (List.filter_congr fun entry _ => decide_eq_decide.mpr (and_congr_left' ?_))
    exact forall₂_congr fun termId _ => by rw [map_docId_newestDocuments termId hstored]; rfl
  have hfirst : ∀ entry ∈ numberedDocuments (insertedDocuments updates),
      (entry.2 ∈ (newestHolders first updates).map Prod.snd ↔ entry ∈ newestHolders first updates) := by
    intro entry hentry
    refine ⟨fun h => ?_, List.mem_map_of_mem⟩
    obtain ⟨other, hother, hsame⟩ := List.mem_map.mp h
    rwa [← List.inj_on_of_nodup_map hids (hsub.subset hother) hentry hsame]
  rw [hfound, List.perm_ext_iff_of_nodup ((hsub.nodup hnodup).filter _) ((hnodup.filter _).filter _)]
  intro entry
  have hinserted : entry ∈ newestHolders first updates → entry ∈ numberedDocuments (insertedDocuments updates) :=
    fun h => hsub.subset h
  have hmem := hfirst entry
  rw [List.mem_filter, List.mem_filter, List.mem_filter, decide_eq_true_iff, decide_eq_true_iff, decide_eq_true_iff,
    OnNewestPages, OnNewestPages, List.forall_mem_cons]
  tauto

/-- There are at most as many documents as postings under term 0. -/
theorem length_insertedDocuments_le
    (hcount : ∀ termId, ((insertedDocuments updates).filter fun doc => doc.PostedUnder termId).length ≤
      maxPossiblePostings) : (insertedDocuments updates).length ≤ maxPossiblePostings := by
  have hall : (insertedDocuments updates).filter (fun doc => doc.PostedUnder 0) = insertedDocuments updates := by
    rw [List.filter_eq_self]
    exact fun doc _ => decide_eq_true (Or.inl rfl)
  rw [← hall]
  exact hcount 0

/-- If the postings of each term of a phrase fit into one page, all documents with the phrase are on the newest. -/
theorem phraseOnNewestPages_of_onePage {phrase : List UInt32}
    (hone : ∀ termId ∈ phrase, ((numberedDocuments (insertedDocuments updates)).filter fun entry =>
      entry.1.PostedUnder termId).length ≤ maxPostingsPerPage) (params : Bm25fParams F) :
    PhraseOnNewestPages phrase updates params := by
  intro entry hentry _ termId htermId
  obtain ⟨hunmarked, hphrase⟩ := List.mem_filter.mp hentry
  obtain ⟨hinserted, -⟩ := List.mem_filter.mp hunmarked
  have hposted : entry.1.PostedUnder termId := .inr ((of_decide_eq_true hphrase).subset htermId)
  have hcapacity : maxPostingsPerPage = 92 := rfl
  have hnone : PageChain.filledBefore maxPostingsPerPage ((numberedDocuments (insertedDocuments updates)).filter
      fun entry => entry.1.PostedUnder termId).length = 0 := by
    have hfew := hone termId htermId
    rw [PageChain.filledBefore, Nat.div_eq_of_lt (by omega), Nat.zero_mul]
  rw [newestHolders, hnone, List.drop_zero]
  exact List.mem_map_of_mem (List.mem_filter.mpr ⟨hinserted, decide_eq_true hposted⟩)

end Numbered

/-- Leaving items out leaves no results out exactly when these items have none. -/
theorem perm_filterMap_filter_iff {α β : Type} {items : List α} {keep : α → Prop} [DecidablePred keep]
    {resultOf : α → Option β} :
    ((items.filter fun x => keep x).filterMap resultOf).Perm (items.filterMap resultOf) ↔
      ∀ x ∈ items, (resultOf x).isSome → keep x := by
  have hlength : ∀ rest : List α,
      ((rest.filter fun x => keep x).filterMap resultOf).length ≤ (rest.filterMap resultOf).length :=
    fun rest => (List.filter_sublist.filterMap resultOf).length_le
  induction items with
  | nil => simp
  | cons x rest ih =>
    rw [List.forall_mem_cons]
    refine Iff.trans ?_ (and_congr_right fun _ => ih)
    by_cases hkeep : keep x
    · rw [List.filter_cons_of_pos (by simpa using hkeep), and_iff_right fun _ => hkeep]
      cases hx : resultOf x with
      | none => rw [List.filterMap_cons_none hx, List.filterMap_cons_none hx]
      | some result => rw [List.filterMap_cons_some hx, List.filterMap_cons_some hx, List.perm_cons]
    · rw [List.filter_cons_of_neg (by simpa using hkeep)]
      cases hx : resultOf x with
      | none => simp [List.filterMap_cons_none hx]
      | some result =>
        have hfew := hlength rest
        rw [List.filterMap_cons_some hx]
        constructor
        · intro h
          have hmore := h.length_eq
          rw [List.length_cons] at hmore
          omega
        · exact fun h => absurd (h.1 rfl) hkeep

/-! ## The search -/

/-- What the search of a phrase answers after a sequence of calls, if there is room for all results. -/
theorem ShardAt.searchedPhrase {s : PageArray} {updates : List ShardUpdate}
    (h : ShardAt s (ShardView.fresh.updates updates))
    (hfits : (ShardView.fresh.updates updates).nextPageId ≤ invalidPageId)
    (hterms : ∀ doc ∈ insertedDocuments updates, doc.termIds.length ≤ 1024)
    (hoften : ∀ doc ∈ insertedDocuments updates, ∀ termId, doc.termIds.count termId ≤ maxPositionsPerPosting)
    (hcount : ∀ termId, ((insertedDocuments updates).filter fun doc => doc.PostedUnder termId).length ≤
      maxPossiblePostings)
    {phrase : List UInt32} (hphrase : 2 ≤ phrase.length) (hzero : ∀ termId ∈ phrase, termId ≠ 0)
    (params : Bm25fParams F) :
    ∃ items, items.Perm ((textRanking params).resultsOf
        ((phraseDocuments phrase updates).filter fun entry => OnNewestPages phrase updates entry.2)) ∧
      ∀ maxResults, items.length ≤ maxResults → ∃ results, results.Perm items ∧
        arrayHandler.exec (shardSearchPhraseIndexed phrase params maxResults) s = some (results, s) := by
  have hindexed := Indexed.fresh.updates ShardView.valid_fresh hfits
  rw [List.nil_append] at hindexed
  have hnumbered : hindexed.stored.map StoredDocument.numbered = numberedDocuments (insertedDocuments updates) :=
    map_storedDocuments hindexed.length_locations
  have hdocs : (insertedDocuments updates).length ≤ 2 ^ 32 := (length_insertedDocuments_le hcount).trans (by decide)
  obtain ⟨first, terms, rfl⟩ := List.exists_cons_of_length_pos (Nat.zero_lt_of_lt hphrase)
  rw [List.length_cons] at hphrase
  have hroom : ∀ termId ∈ first :: terms,
      ((ShardView.fresh.updates updates).postings termId).contents.length ≤ maxPossiblePostings := by
    intro termId htermId
    have hpostings := hindexed.chronological_eq hdocs (hzero termId htermId) fun doc hdoc => hoften doc hdoc termId
    rw [(PageChain.perm_contents _).length_eq, hpostings, List.length_map, length_postedDocuments termId hnumbered]
    exact hcount termId
  have hrecords := hindexed.filterMap_phrasePostings h.valid hdocs (List.ne_nil_of_length_pos (by omega)) hzero
    (fun termId _ doc hdoc => hoften doc hdoc termId)
    (fun doc hdoc => (hterms doc hdoc).trans_lt (by decide)) hroom
  have hsearch := fun maxResults (hmax : _ → 0 < maxResults) =>
    h.exec_searchPhrase (hindexed.addressed h.valid) (first :: terms) params hmax
  rw [hrecords] at hsearch
  have hfound : (foundDocuments first terms hindexed.stored).map StoredDocument.record =
      ((foundDocuments first terms hindexed.stored).map StoredDocument.numbered).map
        fun entry => entry.1.record entry.2 := by
    rw [List.map_map]
    rfl
  have hperm := perm_map_foundDocuments first terms hnumbered hdocs
  have hphraseFilter : unmarkedDocuments updates (((numberedDocuments (insertedDocuments updates)).filter fun entry =>
      entry.1.HasPhrase (first :: terms)).filter fun entry => OnNewestPages (first :: terms) updates entry.2) =
        (phraseDocuments (first :: terms) updates).filter fun entry =>
          OnNewestPages (first :: terms) updates entry.2 := by
    rw [phraseDocuments, unmarkedDocuments, unmarkedDocuments, List.filter_filter, List.filter_filter,
      List.filter_filter, List.filter_filter]
    exact List.filter_congr fun entry _ => (Bool.and_assoc _ _ _).trans (Bool.and_comm _ _)
  rw [hfound, found_numbered] at hsearch
  refine ⟨_, ?_, fun maxResults hmax => ⟨_, ?_, hsearch maxResults fun hsome =>
    (List.length_pos_iff.mpr hsome).trans_le hmax⟩⟩
  · rw [← hphraseFilter]
    exact (hperm.filter _).filterMap _
  · exact (perm_exchangeSort _).trans (.of_eq (offerAll_of_room _ ((Nat.zero_add _).trans_le hmax)))

/-- On a machine, after a sequence of calls on a new shard that all succeed, the search of a phrase with room for
the results of all documents with the phrase returns exactly these. -/
def SearchesPhraseExactly (m : Machine) (updates : List ShardUpdate) (phrase : List UInt32)
    (params : Bm25fParams F) : Prop :=
  ∃ shard : Shard F, ∃ m', poolHandler.exec (runFreshShard updates) m =
      some (some (updates.map fun _ => true, shard), m') ∧
    ∀ maxResults, ((textRanking params).resultsOf (phraseDocuments phrase updates)).length ≤ maxResults →
      ∃ results m'', poolHandler.exec (shardSearchPhraseIndexed phrase params maxResults) m' =
          some (results, m'') ∧
        results.Perm ((textRanking params).resultsOf (phraseDocuments phrase updates))

section Pools

variable {host : Host} {wal : WALManager} {diskFd : ℤ} {poolSize nextPageId : ℕ}
  {updates : List ShardUpdate} {phrase : List UInt32} {params : Bm25fParams F}

/-- What the calls leave, and what the search answers with room for all its results. -/
theorem exec_runFreshShard_searchedPhrase (hfree : host.FaultFree) (hempty : host.dataFile = [])
    (wal : WALManager) (hpool : UsablePool diskFd poolSize nextPageId)
    (hterms : ∀ doc ∈ insertedDocuments updates, doc.termIds.length ≤ 1024)
    (hoften : ∀ doc ∈ insertedDocuments updates, ∀ termId, doc.termIds.count termId ≤ maxPositionsPerPosting)
    (hcount : ∀ termId, ((insertedDocuments updates).filter fun doc => doc.PostedUnder termId).length ≤
      maxPossiblePostings)
    (hphrase : 2 ≤ phrase.length) (hzero : ∀ termId ∈ phrase, termId ≠ 0) (params : Bm25fParams F) :
    ∃ shard : Shard F, ∃ m, poolHandler.exec (runFreshShard updates)
        (newMachine diskFd wal host poolSize nextPageId) =
          some (some (updates.map fun _ => true, shard), m) ∧
      ∃ items, items.Perm ((textRanking params).resultsOf
          ((phraseDocuments phrase updates).filter fun entry => OnNewestPages phrase updates entry.2)) ∧
        ∀ maxResults, items.length ≤ maxResults → ∃ results m', results.Perm items ∧
          poolHandler.exec (shardSearchPhraseIndexed phrase params maxResults) m = some (results, m') := by
  have hpages := ShardView.nextPageId_updates_le ShardView.fresh hterms
  have hdocs := length_insertedDocuments_le hcount
  have hfits : (ShardView.fresh.updates updates).nextPageId ≤ invalidPageId := by
    have hfresh : ShardView.fresh.nextPageId = 3 := rfl
    have hlast : invalidPageId = 4294967295 := rfl
    have hmost : maxPossiblePostings = 1000000 := rfl
    omega
  obtain ⟨s, hs, hrun⟩ := exec_runFreshShard (F := F) hfree hempty wal hfits
  obtain ⟨m, hexec, hm⟩ := hrun diskFd poolSize nextPageId hpool
  obtain ⟨items, hitems, hsearch⟩ := hs.searchedPhrase hfits hterms hoften hcount hphrase hzero params
  refine ⟨_, m, hexec, items, hitems, fun maxResults hmax => ?_⟩
  obtain ⟨results, hperm, harray⟩ := hsearch maxResults hmax
  obtain ⟨m', hpooled, -⟩ := poolHandler_simulates.exec hm harray
  exact ⟨results, m', hperm, hpooled⟩

/-- If the search of a phrase is exact, all documents with the phrase that have a result are on the newest posting
pages of its terms. -/
theorem SearchesPhraseExactly.onNewestPages (hfree : host.FaultFree) (hempty : host.dataFile = [])
    (hpool : UsablePool diskFd poolSize nextPageId)
    (hterms : ∀ doc ∈ insertedDocuments updates, doc.termIds.length ≤ 1024)
    (hoften : ∀ doc ∈ insertedDocuments updates, ∀ termId, doc.termIds.count termId ≤ maxPositionsPerPosting)
    (hcount : ∀ termId, ((insertedDocuments updates).filter fun doc => doc.PostedUnder termId).length ≤
      maxPossiblePostings)
    (hphrase : 2 ≤ phrase.length) (hzero : ∀ termId ∈ phrase, termId ≠ 0)
    (h : SearchesPhraseExactly (newMachine diskFd wal host poolSize nextPageId) updates phrase params) :
    PhraseOnNewestPages phrase updates params := by
  obtain ⟨shard, m, hexec, items, hitems, hsearch⟩ :=
    exec_runFreshShard_searchedPhrase hfree hempty wal hpool hterms hoften hcount hphrase hzero params
  obtain ⟨shard', m', hexec', hall⟩ := h
  rw [hexec, Option.some.injEq, Prod.mk.injEq] at hexec'
  obtain ⟨-, rfl⟩ := hexec'
  set wanted := (textRanking params).resultsOf (phraseDocuments phrase updates)
  -- a search with room for all results of both kinds
  obtain ⟨results, m'', hresults, hexact⟩ := hall (items.length + wanted.length) (Nat.le_add_left _ _)
  obtain ⟨found, m₁, hfound, hm₁⟩ := hsearch (items.length + wanted.length) (Nat.le_add_right _ _)
  rw [hm₁, Option.some.injEq, Prod.mk.injEq] at hresults
  obtain ⟨rfl, -⟩ := hresults
  exact perm_filterMap_filter_iff.mp (hitems.symm.trans (hfound.symm.trans hexact))

/-- The search of a phrase is exact if and only if all documents with the phrase that have a result are on the
newest posting pages of all its terms. -/
theorem searchesPhraseExactly_iff (hfree : host.FaultFree) (hempty : host.dataFile = []) (wal : WALManager)
    (hpool : UsablePool diskFd poolSize nextPageId)
    (hterms : ∀ doc ∈ insertedDocuments updates, doc.termIds.length ≤ 1024)
    (hoften : ∀ doc ∈ insertedDocuments updates, ∀ termId, doc.termIds.count termId ≤ maxPositionsPerPosting)
    (hcount : ∀ termId, ((insertedDocuments updates).filter fun doc => doc.PostedUnder termId).length ≤
      maxPossiblePostings)
    (hphrase : 2 ≤ phrase.length) (hzero : ∀ termId ∈ phrase, termId ≠ 0) (params : Bm25fParams F) :
    SearchesPhraseExactly (newMachine diskFd wal host poolSize nextPageId) updates phrase params ↔
      PhraseOnNewestPages phrase updates params := by
  refine ⟨SearchesPhraseExactly.onNewestPages hfree hempty hpool hterms hoften hcount hphrase hzero,
    fun hnewest => ?_⟩
  obtain ⟨shard, m, hexec, items, hitems, hsearch⟩ :=
    exec_runFreshShard_searchedPhrase hfree hempty wal hpool hterms hoften hcount hphrase hzero params
  have hexact := hitems.trans (perm_filterMap_filter_iff.mpr hnewest)
  refine ⟨shard, m, hexec, fun maxResults hmax => ?_⟩
  obtain ⟨results, m', hresults, hm'⟩ := hsearch maxResults (hexact.length_eq.trans_le hmax)
  exact ⟨results, m', hm', hresults.trans hexact⟩

/-- Three documents, of which two have the phrase and one of these is deleted, in a pool of two frames. -/
theorem searchesPhraseExactly_iff_two_frames :
    SearchesPhraseExactly (newMachine 0 ⟨3, 0⟩ Host.empty 2 0)
        [.insert (.ofTerms 1 1 [7, 9] (by decide)), .insert (.ofTerms 2 3 [9, 7] (by decide)),
          .insert (.ofTerms 3 1 [5, 7, 9] (by decide)), .delete 0] [7, 9] exactParams ↔
      PhraseOnNewestPages [7, 9]
        [.insert (.ofTerms 1 1 [7, 9] (by decide)), .insert (.ofTerms 2 3 [9, 7] (by decide)),
          .insert (.ofTerms 3 1 [5, 7, 9] (by decide)), .delete 0] exactParams := by
  have hshort : ∀ doc ∈ insertedDocuments [.insert (.ofTerms 1 1 [7, 9] (by decide)),
      .insert (.ofTerms 2 3 [9, 7] (by decide)), .insert (.ofTerms 3 1 [5, 7, 9] (by decide)), .delete 0],
        doc.termIds.length ≤ maxPositionsPerPosting := by decide
  exact searchesPhraseExactly_iff ⟨rfl, rfl, rfl, rfl⟩ rfl ⟨3, 0⟩
    ⟨le_refl 0, le_refl 2, by decide, by decide⟩
    (fun doc hdoc => (hshort doc hdoc).trans (by decide))
    (fun doc hdoc termId => List.count_le_length.trans (hshort doc hdoc))
    (fun termId => (List.length_filter_le _ _).trans (by decide)) (le_refl 2) (by simp) exactParams

/-- A document with the terms 7 and 9. -/
def phraseDocument : Document := .ofTerms 1 1 [7, 9] (by decide)

/-- The search of a phrase misses the first one of 93 documents, which is on an older posting page. -/
theorem not_searchesPhraseExactly :
    ¬SearchesPhraseExactly (newMachine 0 ⟨3, 0⟩ Host.empty 2 0)
      (List.replicate 93 (.insert phraseDocument)) [7, 9] exactParams := by
  intro h
  have hinserted : insertedDocuments (List.replicate 93 (.insert phraseDocument)) =
      List.replicate 93 phraseDocument := rfl
  have hsame : ∀ doc ∈ insertedDocuments (List.replicate 93 (.insert phraseDocument)), doc = phraseDocument := by
    rw [hinserted]
    exact fun doc hdoc => List.eq_of_mem_replicate hdoc
  have hshort : ∀ doc ∈ insertedDocuments (List.replicate 93 (.insert phraseDocument)),
      doc.termIds.length ≤ maxPositionsPerPosting := by
    intro doc hdoc
    rw [hsame doc hdoc]
    decide
  have hnewest := h.onNewestPages ⟨rfl, rfl, rfl, rfl⟩ rfl ⟨le_refl 0, le_refl 2, by decide, by decide⟩
    (fun doc hdoc => (hshort doc hdoc).trans (by decide))
    (fun doc hdoc termId => List.count_le_length.trans (hshort doc hdoc))
    (fun termId => (List.length_filter_le _ _).trans (by decide)) (le_refl 2) (by simp)
  have hfirst : (phraseDocument, 0) ∈ phraseDocuments [7, 9] (List.replicate 93 (.insert phraseDocument)) :=
    List.mem_filter.mpr ⟨List.mem_filter.mpr ⟨List.mem_cons_self, by decide +kernel⟩, by decide +kernel⟩
  have holder : (0 : UInt32) ∉ (newestHolders 7 (List.replicate 93 (.insert phraseDocument))).map Prod.snd := by
    decide +kernel
  exact holder (hnewest _ hfirst (by decide +kernel) 7 List.mem_cons_self)

end Pools

end FtsUring
