import FtsUring.Engine.Search
import FtsUring.Foundation.Lowest
import FtsUring.Search.TermSearch

/-!
# Scatter and gather

A query that is either a text query or a vector query takes the 64 best results of every shard and sorts
them. The scores are those of the best documents overall, however the documents are distributed, as long
as the tombstone pages mark the deleted documents only, and a vector query does not merge documents with
the same node id. Of the documents of one node that are among the best of their shards it keeps the one with the
lowest cosine.
-/

namespace FtsUring

open Foundation

variable {F : Type} [Double F]

/-- The shard was opened new, and the calls were made on it. -/
structure EngineShard.Ran (s : EngineShard F) (updates : List ShardUpdate) : Prop where
  fits : (ShardView.fresh.updates updates).nextPageId < invalidPageId
  run : ∃ host wal diskFd poolSize nextPageId, host.FaultFree ∧ host.dataFile = [] ∧
    UsablePool diskFd poolSize nextPageId ∧
      poolHandler.exec (runFreshShard updates) (newMachine diskFd wal host poolSize nextPageId) =
        some (some (updates.map fun _ => true, s.shard), s.machine)

/-- The pages of such a shard, and what the searches answer. -/
theorem EngineShard.Ran.searched {s : EngineShard F} {updates : List ShardUpdate} (h : s.Ran updates)
    (hshort : ∀ doc ∈ insertedDocuments updates, doc.NoRecordSlots) :
    ∃ pages, Represents s.machine pages ∧ Searched F pages updates := by
  obtain ⟨host, wal, diskFd, poolSize, nextPageId, hfree, hempty, hpool, hrun⟩ := h.run
  obtain ⟨shard, m, pages, hexec, hm, hpages⟩ :=
    exec_runFreshShard_searched (F := F) hfree hempty wal hpool h.fits hshort
  rw [hrun, Option.some.injEq, Prod.mk.injEq] at hexec
  exact ⟨pages, hexec.2 ▸ hm, hpages⟩

omit [Double F] in
/-- Scattering a search that every shard answers. -/
theorem scatter_eq {α : Type} {search : PageProgram α} {shards : List (EngineShard F)} {found : List α}
    (h : List.Forall₂ (fun (s : EngineShard F) answer => ∃ machine,
      poolHandler.exec search s.machine = some (answer, machine)) shards found) :
    ∃ shards', scatter search shards = some (found, shards') := by
  induction h with
  | nil => exact ⟨[], rfl⟩
  | @cons s answer rest others hs _ ih =>
    obtain ⟨machine, hexec⟩ := hs
    obtain ⟨shards', hrest⟩ := ih
    refine ⟨{ s with machine } :: shards', ?_⟩
    rw [scatter, hexec, Option.bind_some, hrest]
    rfl

/-! ## One kind of search -/

/-- The ranking of a query that is only a text query or only a vector query. -/
def UnifiedQuery.ranking (query : UnifiedQuery) (params : Bm25fParams F) : Ranking F :=
  if query.useText then textRanking params else vectorRanking query.queryEmbedding

/-- The best results of a shard. -/
def shardBest (ranking : Ranking F) (updates : List ShardUpdate) : List (UnifiedSearchResult F) :=
  exchangeSort ranking.key (offerAll ranking.key maxResultsPerShard []
    (ranking.resultsOf (unmarkedDocuments updates (numberedDocuments (insertedDocuments updates)))))

/-- The documents of a shard that its tombstone page leaves unmarked. -/
def unmarkedIn (updates : List ShardUpdate) : List NumberedDocument :=
  unmarkedDocuments updates (numberedDocuments (insertedDocuments updates))

/-- The documents that the tombstone pages leave unmarked. -/
def unmarkedOf (distribution : List (List ShardUpdate)) : List NumberedDocument :=
  distribution.flatMap unmarkedIn

/-- The answer of one shard. -/
theorem exec_searchShard {pages : PageArray} {updates : List ShardUpdate} (h : Searched F pages updates)
    (params : Bm25fParams F) {query : UnifiedQuery} (hsole : query.useText ≠ query.useVector) :
    arrayHandler.exec (searchShard params query) pages =
      some (if query.useText then (shardBest (query.ranking params) updates, [])
        else ([], shardBest (query.ranking params) updates), pages) := by
  have hmax : 0 < maxResultsPerShard := by decide
  rw [searchShard, UnifiedQuery.ranking]
  cases htext : query.useText with
  | true =>
    have hvector : query.useVector = false := by
      rw [htext] at hsole
      exact Bool.eq_false_iff.mpr hsole.symm
    simp only [hvector, if_true, Bool.false_eq_true, if_false]
    rw [shardSearchBm25f, Handler.exec_bind_of_eq _ (h.scan (textRanking params) hmax)]
    rfl
  | false =>
    have hvector : query.useVector = true := by
      rw [htext] at hsole
      exact Bool.eq_true_of_not_eq_false hsole.symm
    simp only [hvector, if_true, Bool.false_eq_true, if_false, pure_bind]
    rw [shardSearchVector, Handler.exec_bind_of_eq _ (h.scan (vectorRanking query.queryEmbedding) hmax)]
    rfl

/-! ## Merging by node -/

/-- The last score of each node. -/
def lastOfEachNode : List (Vector UInt8 16 × F) → List (Vector UInt8 16 × F)
  | [] => []
  | entry :: rest =>
    if entry.1 ∈ rest.map Prod.fst then lastOfEachNode rest else entry :: lastOfEachNode rest

/-- The node of a result with its cosine. -/
def UnifiedSearchResult.nodeCosine (result : UnifiedSearchResult F) : Vector UInt8 16 × F :=
  (result.nodeId, result.cosineScore)

omit [Double F] in
/-- The last scores are some of the scores. -/
theorem lastOfEachNode_sublist (entries : List (Vector UInt8 16 × F)) :
    (lastOfEachNode entries).Sublist entries := by
  induction entries with
  | nil => exact List.Sublist.slnil
  | cons entry rest ih =>
    rw [lastOfEachNode]
    split_ifs
    · exact ih.cons entry
    · exact ih.cons_cons entry

omit [Double F] in
/-- There is one last score for each node. -/
theorem nodup_lastOfEachNode (entries : List (Vector UInt8 16 × F)) :
    ((lastOfEachNode entries).map Prod.fst).Nodup := by
  induction entries with
  | nil => exact List.nodup_nil
  | cons entry rest ih =>
    rw [lastOfEachNode]
    split_ifs with hlater
    · exact ih
    · rw [List.map_cons, List.nodup_cons]
      exact ⟨fun hmem => hlater (((lastOfEachNode_sublist rest).map Prod.fst).subset hmem), ih⟩

omit [Double F] in
/-- One score more takes the place of the last one of its node. -/
theorem lastOfEachNode_concat (entries : List (Vector UInt8 16 × F)) (entry : Vector UInt8 16 × F) :
    lastOfEachNode (entries ++ [entry]) =
      (lastOfEachNode entries).filter (fun other => other.1 ≠ entry.1) ++ [entry] := by
  induction entries with
  | nil => rfl
  | cons first rest ih =>
    rw [List.cons_append, lastOfEachNode, lastOfEachNode, ih]
    by_cases hsame : first.1 = entry.1
    · have hlater : first.1 ∈ (rest ++ [entry]).map Prod.fst := by
        rw [List.map_append, List.mem_append, hsame]
        exact Or.inr (List.mem_singleton_self _)
      rw [if_pos hlater]
      split_ifs
      · rfl
      · rw [List.filter_cons_of_neg (by simpa using hsame)]
    · have hlater : first.1 ∈ (rest ++ [entry]).map Prod.fst ↔ first.1 ∈ rest.map Prod.fst := by
        rw [List.map_append, List.mem_append]
        exact or_iff_left fun hmem => hsame (List.mem_singleton.mp hmem)
      by_cases hmem : first.1 ∈ rest.map Prod.fst
      · rw [if_pos hmem, if_pos (hlater.mpr hmem)]
      · rw [if_neg hmem, if_neg (hlater.not.mpr hmem), List.filter_cons_of_pos (by simpa using hsame),
          List.cons_append]

/-- In descending order the last score of each node is a lowest one. -/
theorem isLowest_lastOfEachNode {numbers : F → Prop} (hlinear : LinearOn numbers)
    {entries : List (Vector UInt8 16 × F)} (hnumbers : ∀ entry ∈ entries, numbers entry.2)
    (hsorted : entries.Pairwise fun a b => ¬a.2 < b.2) : IsLowest entries (lastOfEachNode entries) where
  nodup := nodup_lastOfEachNode entries
  mem low hlow := (lastOfEachNode_sublist entries).subset hlow
  least := by
    induction entries with
    | nil => exact fun entry hentry => absurd hentry List.not_mem_nil
    | cons first rest ih =>
      have hrestNumbers : ∀ entry ∈ rest, numbers entry.2 := fun entry hentry =>
        hnumbers entry (List.mem_cons_of_mem _ hentry)
      obtain ⟨hfirst, hrest⟩ := List.pairwise_cons.mp hsorted
      have hleast := ih hrestNumbers hrest
      intro entry hentry
      rw [lastOfEachNode]
      split_ifs with hlater
      · obtain rfl | hentry := List.mem_cons.mp hentry
        · -- a later score of the node is not higher
          obtain ⟨other, hother, hnode⟩ := List.mem_map.mp hlater
          obtain ⟨low, hlow, hlowNode, hnotLower⟩ := hleast other hother
          refine ⟨low, hlow, hlowNode.trans hnode, ?_⟩
          exact hlinear.not_lt_trans (hnumbers entry List.mem_cons_self) (hrestNumbers other hother)
            (hrestNumbers low ((lastOfEachNode_sublist rest).subset hlow)) (hfirst other hother) hnotLower
        · exact hleast entry hentry
      · obtain rfl | hentry := List.mem_cons.mp hentry
        · exact ⟨entry, List.mem_cons_self, rfl, hlinear.irrefl _ (hnumbers entry List.mem_cons_self)⟩
        · obtain ⟨low, hlow, hlowNode, hnotLower⟩ := hleast entry hentry
          exact ⟨low, List.mem_cons_of_mem _ hlow, hlowNode, hnotLower⟩

omit [Double F] in
/-- Merging one result. -/
theorem perm_mergeVector {merged : List (UnifiedSearchResult F)}
    (hdistinct : ((merged.map UnifiedSearchResult.nodeCosine).map Prod.fst).Nodup)
    (result : UnifiedSearchResult F) :
    ((mergeVector merged result).map UnifiedSearchResult.nodeCosine).Perm
      ((merged.map UnifiedSearchResult.nodeCosine).filter
        (fun entry => entry.1 ≠ result.nodeCosine.1) ++ [result.nodeCosine]) := by
  rw [mergeVector]
  cases hfind : merged.findIdx? fun other => other.nodeId = result.nodeId with
  | none =>
    have hkept : (merged.map UnifiedSearchResult.nodeCosine).filter
        (fun entry => entry.1 ≠ result.nodeCosine.1) = merged.map UnifiedSearchResult.nodeCosine := by
      rw [List.filter_eq_self]
      intro entry hentry
      obtain ⟨other, hother, rfl⟩ := List.mem_map.mp hentry
      have hnew := List.findIdx?_eq_none_iff.mp hfind other hother
      rw [decide_eq_false_iff_not] at hnew
      exact decide_eq_true hnew
    rw [hkept]
    dsimp only
    rw [List.map_append]
    exact List.Perm.refl _
  | some j =>
    obtain ⟨hj, hfound, -⟩ := List.findIdx?_eq_some_iff_getElem.mp hfind
    obtain ⟨front, found, back, rfl, rfl, hmodify⟩ := @List.exists_of_modify _ (fun other =>
      { other with cosineScore := result.cosineScore, cosineRank := result.cosineRank }) _ _ hj
    have hsame : found.nodeId = result.nodeId := by
      simpa using of_decide_eq_true hfound
    -- the results before and after it are of other nodes
    rw [List.map_append, List.map_cons, List.map_append, List.map_cons, List.nodup_middle,
      List.nodup_cons, List.mem_append, not_or] at hdistinct
    have hothers : ∀ others : List (UnifiedSearchResult F),
        found.nodeCosine.1 ∉ (others.map UnifiedSearchResult.nodeCosine).map Prod.fst →
          (others.map UnifiedSearchResult.nodeCosine).filter
            (fun entry => entry.1 ≠ result.nodeCosine.1) = others.map UnifiedSearchResult.nodeCosine := by
      intro others hnot
      rw [List.filter_eq_self]
      intro entry hentry
      refine decide_eq_true fun hnode => hnot ?_
      have hfoundNode : found.nodeCosine.1 = entry.1 := hsame.trans hnode.symm
      exact hfoundNode ▸ List.mem_map_of_mem hentry
    have hreplaced : (found.nodeCosine :: back.map UnifiedSearchResult.nodeCosine).filter
        (fun entry => entry.1 ≠ result.nodeCosine.1) =
          (back.map UnifiedSearchResult.nodeCosine).filter fun entry => entry.1 ≠ result.nodeCosine.1 :=
      List.filter_cons_of_neg fun hother => of_decide_eq_true hother hsame
    have hmerged : ({ found with cosineScore := result.cosineScore, cosineRank := result.cosineRank } :
        UnifiedSearchResult F).nodeCosine = result.nodeCosine := Prod.ext hsame rfl
    dsimp only
    rw [hmodify, List.map_append, List.map_cons, hmerged, List.map_append, List.map_cons,
      List.filter_append, hreplaced, hothers front hdistinct.1.1,
      hothers back hdistinct.1.2]
    exact List.perm_middle.trans (List.perm_append_singleton _ _).symm

omit [Double F] in
/-- Merging keeps the last score of each node. -/
theorem perm_foldl_mergeVector (results : List (UnifiedSearchResult F)) :
    ((results.foldl mergeVector []).map UnifiedSearchResult.nodeCosine).Perm
      (lastOfEachNode (results.map UnifiedSearchResult.nodeCosine)) := by
  induction results using List.reverseRecOn with
  | nil => exact List.Perm.refl _
  | append_singleton results result ih =>
    have hdistinct := (ih.map Prod.fst).nodup_iff.mpr (nodup_lastOfEachNode _)
    rw [List.foldl_append, List.map_append, List.map_singleton, lastOfEachNode_concat]
    exact (perm_mergeVector hdistinct result).trans ((ih.filter _).append_right _)

/-! ## The results of one kind of search -/

/-- The scores that compete for the answer of the engine. A vector search keeps one of the results that
the shards return for a node, the last one in descending order. -/
def competingScores (params : Bm25fParams F) (query : UnifiedQuery)
    (distribution : List (List ShardUpdate)) : List F :=
  if query.useText then
    ((query.ranking params).resultsOf (unmarkedOf distribution)).map (query.ranking params).key
  else
    (lastOfEachNode ((exchangeSort UnifiedSearchResult.cosineScore
      (distribution.flatMap (shardBest (query.ranking params)))).map
        UnifiedSearchResult.nodeCosine)).map Prod.snd

omit [Double F] in
/-- A member that numbering leaves alone. -/
theorem map_mapIdx_eq {β : Type} {view : UnifiedSearchResult F → β}
    {number : ℕ → UnifiedSearchResult F → UnifiedSearchResult F}
    (hsame : ∀ i result, view (number i result) = view result) (results : List (UnifiedSearchResult F)) :
    (results.mapIdx number).map view = results.map view := by
  apply List.ext_getElem?
  intro i
  rw [List.getElem?_map, List.getElem?_mapIdx, Option.map_map, List.getElem?_map]
  congr 1
  funext result
  exact hsame i result

/-- Numbering keeps the scores of the texts. -/
theorem map_rankText (results : List (UnifiedSearchResult F)) :
    (rankText results).map UnifiedSearchResult.bm25fScore =
      (exchangeSort UnifiedSearchResult.bm25fScore results).map UnifiedSearchResult.bm25fScore := by
  rw [rankText]
  apply map_mapIdx_eq
  intro i result
  rfl

/-- Numbering keeps the nodes with their cosines. -/
theorem map_rankVector (results : List (UnifiedSearchResult F)) :
    (rankVector results).map UnifiedSearchResult.nodeCosine =
      (exchangeSort UnifiedSearchResult.cosineScore results).map UnifiedSearchResult.nodeCosine := by
  rw [rankVector]
  apply map_mapIdx_eq
  intro i result
  rfl

/-- Sorting results whose scores are numbers. -/
theorem pairwise_sortedKeys {numbers : F → Prop} (hlinear : LinearOn numbers)
    {key : UnifiedSearchResult F → F} {results : List (UnifiedSearchResult F)} {scores : List F}
    (hscores : (results.map key).Perm scores) (hnumbers : ∀ score ∈ scores, numbers score) :
    ((exchangeSort key results).map key).Perm scores ∧
      ((exchangeSort key results).map key).Pairwise fun a b => ¬a < b := by
  refine ⟨((perm_exchangeSort results).map key).trans hscores, List.pairwise_map.mpr ?_⟩
  apply pairwise_exchangeSort hlinear
  intro result hresult
  exact hnumbers _ (hscores.mem_iff.mp (List.mem_map_of_mem hresult))

/-- The scores of the fused results, in descending order. -/
theorem fuseResults_sole {numbers : F → Prop} (hlinear : LinearOn numbers)
    (qsort : List (UnifiedSearchResult F) → List (UnifiedSearchResult F)) (params : Bm25fParams F)
    {query : UnifiedQuery} (hsole : query.useText ≠ query.useVector)
    {gathered : List (UnifiedSearchResult F)}
    (hnumbers : ∀ result ∈ gathered, numbers ((query.ranking params).key result)) :
    ((fuseResults qsort query (if query.useText then gathered else [])
        (if query.useText then [] else gathered)).map (query.ranking params).key).Perm
      (if query.useText then gathered.map (query.ranking params).key
        else (lastOfEachNode ((exchangeSort UnifiedSearchResult.cosineScore gathered).map
          UnifiedSearchResult.nodeCosine)).map Prod.snd) ∧
      ((fuseResults qsort query (if query.useText then gathered else [])
        (if query.useText then [] else gathered)).map (query.ranking params).key).Pairwise
          fun a b => ¬a < b := by
  rw [UnifiedQuery.ranking] at hnumbers ⊢
  rw [fuseResults]
  cases htext : query.useText with
  | true =>
    have hvector : query.useVector = false := by
      rw [htext] at hsole
      exact Bool.eq_false_iff.mpr hsole.symm
    have hranked : ((rankText gathered).map UnifiedSearchResult.bm25fScore).Perm
        (gathered.map UnifiedSearchResult.bm25fScore) := by
      rw [map_rankText]
      exact (perm_exchangeSort gathered).map _
    simp only [htext, hvector, if_true, Bool.false_eq_true, and_false, if_false, List.foldl_nil]
      at hnumbers ⊢
    exact pairwise_sortedKeys hlinear hranked (List.forall_mem_map.mpr hnumbers)
  | false =>
    have hvector : query.useVector = true := by
      rw [htext] at hsole
      exact Bool.eq_true_of_not_eq_false hsole.symm
    have hmerged := (perm_foldl_mergeVector (rankVector gathered)).map Prod.snd
    rw [map_rankVector, List.map_map] at hmerged
    simp only [htext, hvector, if_true, Bool.false_eq_true, false_and, if_false] at hnumbers ⊢
    apply pairwise_sortedKeys hlinear hmerged
    intro score hscore
    obtain ⟨entry, hentry, rfl⟩ := List.mem_map.mp hscore
    obtain ⟨result, hresult, rfl⟩ := List.mem_map.mp ((lastOfEachNode_sublist _).subset hentry)
    exact hnumbers result ((perm_exchangeSort gathered).mem_iff.mp hresult)

/-! ## All shards -/

/-- A query selects the best scores of the live documents overall. -/
def GathersBest (qsort : List (UnifiedSearchResult F) → List (UnifiedSearchResult F))
    (engine : UnifiedEngine F) (query : UnifiedQuery) (distribution : List (List ShardUpdate)) : Prop :=
  ∀ maxResults, ∃ results engine', engineSearch qsort engine query maxResults = some (results, engine') ∧
    IsTopK id (min maxResults maxResultsPerShard)
      (((query.ranking engine.params).resultsOf (distribution.flatMap liveDocuments)).map
        (query.ranking engine.params).key)
      ((results.take maxResultsPerShard).map (query.ranking engine.params).key) ∧
    ((results.take maxResultsPerShard).map (query.ranking engine.params).key).Pairwise fun a b => ¬a < b

/-- Two lists of scores have the same best ones. -/
def HaveSameBest (scores scores' : List F) : Prop :=
  ∃ best, IsTopK id maxResultsPerShard scores best ∧ IsTopK id maxResultsPerShard scores' best

/-- The nodes of documents, each with the cosine of the document. -/
def nodeCosines (queryVec : Vector UInt32 embeddingDim) (entries : List NumberedDocument) :
    List (Vector UInt8 16 × F) :=
  entries.map fun entry => (entry.1.nodeId, computeCosineSimilarity queryVec entry.1.embedding)

/-- A choice of 64 best unmarked documents of every shard; documents with the same cosine may be chosen in any
way. -/
def BestOfShards (queryVec : Vector UInt32 embeddingDim) (distribution : List (List ShardUpdate))
    (kept : List (List (Vector UInt8 16 × F))) : Prop :=
  List.Forall₂ (IsTopK Prod.snd maxResultsPerShard)
    (distribution.map fun updates => nodeCosines queryVec (unmarkedIn updates)) kept

/-- The documents without a tombstone have the best scores of the live documents. For a vector query only one
document of each node counts among the best of the shards, one with the lowest cosine. -/
def SameBest (params : Bm25fParams F) (query : UnifiedQuery) (distribution : List (List ShardUpdate)) :
    Prop :=
  if query.useText then
    HaveSameBest (((textRanking params).resultsOf (unmarkedOf distribution)).map UnifiedSearchResult.bm25fScore)
      (((textRanking params).resultsOf (distribution.flatMap liveDocuments)).map UnifiedSearchResult.bm25fScore)
  else
    ∀ (kept : List (List (Vector UInt8 16 × F))) (lowest : List (Vector UInt8 16 × F)),
      BestOfShards query.queryEmbedding distribution kept → IsLowest kept.flatten lowest →
        HaveSameBest (lowest.map Prod.snd)
          ((nodeCosines query.queryEmbedding (distribution.flatMap liveDocuments)).map Prod.snd)

/-- A document that ties for the last place in its shard is the only one of its node. -/
def TiesApart (F : Type) [Double F] (queryVec : Vector UInt32 embeddingDim)
    (distribution : List (List ShardUpdate)) : Prop :=
  ∀ updates ∈ distribution, ∀ entry ∈ (nodeCosines queryVec (unmarkedIn updates) : List (Vector UInt8 16 × F)),
    TiesAcross Prod.snd maxResultsPerShard (nodeCosines queryVec (unmarkedIn updates)) entry →
      ((unmarkedOf distribution).map fun other => other.1.nodeId).count entry.1 = 1

section Gathering

variable {numbers : F → Prop} {engine : UnifiedEngine F} {query : UnifiedQuery}
  {distribution : List (List ShardUpdate)}

/-- The results of all shards. -/
theorem resultsOf_flatMap (ranking : Ranking F) {α : Type} (parts : List α)
    (entries : α → List NumberedDocument) :
    ranking.resultsOf (parts.flatMap entries) =
      (parts.map fun part => ranking.resultsOf (entries part)).flatten := by
  rw [Ranking.resultsOf, List.filterMap_flatMap, List.flatMap_def]
  rfl

/-- Some of the documents of every shard. -/
theorem flatMap_subset {part whole : List ShardUpdate → List NumberedDocument}
    (hsub : ∀ updates, part updates ⊆ whole updates) :
    distribution.flatMap part ⊆ distribution.flatMap whole := by
  intro entry hentry
  obtain ⟨updates, hupdates, hmem⟩ := List.mem_flatMap.mp hentry
  exact List.mem_flatMap.mpr ⟨updates, hupdates, hsub updates hmem⟩

/-- The documents that were inserted into some shard. -/
def insertedInto (distribution : List (List ShardUpdate)) : List NumberedDocument :=
  distribution.flatMap fun updates => numberedDocuments (insertedDocuments updates)

/-- A shard selects its best results. -/
theorem isTopK_shardBest (hlinear : LinearOn numbers) {ranking : Ranking F}
    (hnumbers : ∀ result ∈ ranking.resultsOf (insertedInto distribution), numbers (ranking.key result)) :
    ∀ updates ∈ distribution, IsTopK ranking.key maxResultsPerShard
      (ranking.resultsOf (unmarkedDocuments updates (numberedDocuments (insertedDocuments updates))))
      (shardBest ranking updates) := by
  intro updates hupdates
  refine (isTopK_exchangeSort_offerAll hlinear maxResultsPerShard fun result hresult => ?_).1
  refine hnumbers result (ranking.resultsOf_subset ?_ hresult)
  intro entry hentry
  exact List.mem_flatMap.mpr ⟨updates, hupdates, List.mem_of_mem_filter hentry⟩

/-- The scores of what the shards select are numbers. -/
theorem numbers_gathered (hlinear : LinearOn numbers) {ranking : Ranking F}
    (hnumbers : ∀ result ∈ ranking.resultsOf (insertedInto distribution), numbers (ranking.key result)) :
    ∀ result ∈ distribution.flatMap (shardBest ranking), numbers (ranking.key result) := by
  intro result hresult
  obtain ⟨updates, hupdates, hmem⟩ := List.mem_flatMap.mp hresult
  have hfound := (isTopK_shardBest hlinear hnumbers updates hupdates).mem hmem
  refine hnumbers result (ranking.resultsOf_subset ?_ hfound)
  intro entry hentry
  exact List.mem_flatMap.mpr ⟨updates, hupdates, List.mem_of_mem_filter hentry⟩

/-- The scores of some of the documents are numbers. -/
theorem numbers_part {ranking : Ranking F} {part : List ShardUpdate → List NumberedDocument}
    (hnumbers : ∀ result ∈ ranking.resultsOf (insertedInto distribution), numbers (ranking.key result))
    (hpart : ∀ updates, part updates ⊆ numberedDocuments (insertedDocuments updates)) :
    ∀ score ∈ (ranking.resultsOf (distribution.flatMap part)).map ranking.key, numbers score := by
  intro score hscore
  obtain ⟨result, hresult, rfl⟩ := List.mem_map.mp hscore
  exact hnumbers result (ranking.resultsOf_subset (flatMap_subset hpart) hresult)

/-- The competing scores are numbers. -/
theorem numbers_competingScores (hlinear : LinearOn numbers) {params : Bm25fParams F}
    (hnumbers : ∀ result ∈ (query.ranking params).resultsOf (insertedInto distribution),
      numbers ((query.ranking params).key result)) :
    ∀ score ∈ competingScores params query distribution, numbers score := by
  intro score hscore
  rw [competingScores] at hscore
  split_ifs at hscore with htext
  · exact numbers_part hnumbers (fun _ => List.filter_subset_self _) score hscore
  · obtain ⟨entry, hentry, rfl⟩ := List.mem_map.mp hscore
    obtain ⟨result, hresult, rfl⟩ := List.mem_map.mp ((lastOfEachNode_sublist _).subset hentry)
    have hnumber := numbers_gathered hlinear hnumbers result ((perm_exchangeSort _).mem_iff.mp hresult)
    rw [UnifiedQuery.ranking, if_neg htext] at hnumber
    exact hnumber

/-- What a search of all shards returns. -/
theorem scatter_searchShard (hran : List.Forall₂ EngineShard.Ran engine.shards distribution)
    (hsole : query.useText ≠ query.useVector)
    (hshort : ∀ updates ∈ distribution, ∀ doc ∈ insertedDocuments updates, doc.NoRecordSlots) :
    ∃ shards, scatter (searchShard engine.params query) engine.shards =
      some (distribution.map fun updates =>
        if query.useText then (shardBest (query.ranking engine.params) updates, [])
        else ([], shardBest (query.ranking engine.params) updates), shards) := by
  apply scatter_eq
  generalize engine.params = params
  generalize engine.shards = shards at hran
  induction hran with
  | nil => exact List.Forall₂.nil
  | @cons s updates shards distribution hs _ ih =>
    refine List.Forall₂.cons ?_ (ih fun others hothers => hshort others (List.mem_cons_of_mem _ hothers))
    obtain ⟨pages, hpages, hsearched⟩ := hs.searched (hshort updates List.mem_cons_self)
    obtain ⟨machine, hexec, -⟩ :=
      poolHandler_simulates.exec hpages (exec_searchShard hsearched params hsole)
    exact ⟨machine, hexec⟩

/-- The answer of the engine consists of the best competing scores. -/
theorem engineSearch_sole (hlinear : LinearOn numbers)
    (hran : List.Forall₂ EngineShard.Ran engine.shards distribution)
    (hsole : query.useText ≠ query.useVector)
    (hshort : ∀ updates ∈ distribution, ∀ doc ∈ insertedDocuments updates, doc.NoRecordSlots)
    (hnumbers : ∀ result ∈ (query.ranking engine.params).resultsOf (insertedInto distribution),
      numbers ((query.ranking engine.params).key result))
    (qsort : List (UnifiedSearchResult F) → List (UnifiedSearchResult F)) (maxResults : ℕ) :
    ∃ results engine', engineSearch qsort engine query maxResults = some (results, engine') ∧
      IsTopK id (min maxResults maxResultsPerShard) (competingScores engine.params query distribution)
        ((results.take maxResultsPerShard).map (query.ranking engine.params).key) ∧
      ((results.take maxResultsPerShard).map (query.ranking engine.params).key).Pairwise
        fun a b => ¬a < b := by
  obtain ⟨shards, hscatter⟩ := scatter_searchShard hran hsole hshort
  set ranking := query.ranking engine.params with hranking
  set gathered := distribution.flatMap (shardBest ranking) with hgathered
  have hfst : (distribution.map fun updates => if query.useText then (shardBest ranking updates, [])
      else ([], shardBest ranking updates)).flatMap Prod.fst = if query.useText then gathered else [] := by
    rw [List.flatMap_map]
    cases query.useText
    · exact List.flatMap_eq_nil_iff.mpr fun _ _ => rfl
    · rfl
  have hsnd : (distribution.map fun updates => if query.useText then (shardBest ranking updates, [])
      else ([], shardBest ranking updates)).flatMap Prod.snd = if query.useText then [] else gathered := by
    rw [List.flatMap_map]
    cases query.useText
    · rfl
    · exact List.flatMap_eq_nil_iff.mpr fun _ _ => rfl
  have hgatheredNumbers := numbers_gathered hlinear hnumbers
  have hshard := isTopK_shardBest hlinear hnumbers
  obtain ⟨hperm, hsorted⟩ := fuseResults_sole hlinear qsort engine.params hsole hgatheredNumbers
  rw [← hranking] at hperm hsorted
  refine ⟨_, _, by rw [engineSearch, hscatter, Option.map_some], ?_⟩
  rw [hfst, hsnd, List.take_take, List.map_take, min_comm maxResultsPerShard maxResults]
  set fused := fuseResults qsort query (if query.useText then gathered else [])
    (if query.useText then [] else gathered) with hfused
  have htop := @isTopK_take_of_pairwise F F _ id _ hsorted (min maxResults maxResultsPerShard)
  refine ⟨?_, hsorted.sublist (List.take_sublist _ _)⟩
  rw [competingScores, ← hranking, ← hgathered]
  cases htext : query.useText with
  | false =>
    rw [htext] at hperm
    exact htop.of_perm hperm
  | true =>
    rw [htext, if_pos rfl] at hperm
    have hparts : List.Forall₂ (IsTopK id maxResultsPerShard)
        (distribution.map fun updates => (ranking.resultsOf (unmarkedDocuments updates
          (numberedDocuments (insertedDocuments updates)))).map ranking.key)
        (distribution.map fun updates => (shardBest ranking updates).map ranking.key) := by
      rw [List.forall₂_map_left_iff, List.forall₂_map_right_iff, List.forall₂_same]
      exact fun updates hupdates => (hshard updates hupdates).keys
    have hcompeting : (distribution.map fun updates => (ranking.resultsOf (unmarkedDocuments updates
          (numberedDocuments (insertedDocuments updates)))).map ranking.key).flatten =
        (ranking.resultsOf (unmarkedOf distribution)).map ranking.key := by
      rw [unmarkedOf, resultsOf_flatMap, List.map_flatten, List.map_map]
      rfl
    have hchosen : (distribution.map fun updates =>
        (shardBest ranking updates).map ranking.key).flatten = gathered.map ranking.key := by
      rw [hgathered, List.flatMap_def, List.map_flatten, List.map_map]
      rfl
    rw [if_pos rfl, ← hcompeting]
    apply IsTopK.flatten hlinear (min_le_right _ _) hparts
    · rw [hchosen]
      exact htop.of_perm hperm
    · rw [hcompeting]
      exact numbers_part hnumbers fun _ => List.filter_subset_self _

/-- When the answer has the best scores of the live documents, so do the competing scores. -/
theorem GathersBest.competing (hlinear : LinearOn numbers)
    (hran : List.Forall₂ EngineShard.Ran engine.shards distribution)
    (hsole : query.useText ≠ query.useVector)
    (hshort : ∀ updates ∈ distribution, ∀ doc ∈ insertedDocuments updates, doc.NoRecordSlots)
    (hnumbers : ∀ result ∈ (query.ranking engine.params).resultsOf (insertedInto distribution),
      numbers ((query.ranking engine.params).key result))
    {qsort : List (UnifiedSearchResult F) → List (UnifiedSearchResult F)}
    (h : GathersBest qsort engine query distribution) :
    HaveSameBest (competingScores engine.params query distribution)
      (((query.ranking engine.params).resultsOf (distribution.flatMap liveDocuments)).map
        (query.ranking engine.params).key) := by
  obtain ⟨results, engine', hexec, hlive, -⟩ := h maxResultsPerShard
  obtain ⟨results', engine'', hexec', hcompeting, -⟩ :=
    engineSearch_sole hlinear hran hsole hshort hnumbers qsort maxResultsPerShard
  rw [hexec, Option.some.injEq, Prod.mk.injEq] at hexec'
  obtain ⟨rfl, -⟩ := hexec'
  exact ⟨_, hcompeting, hlive⟩

/-- When the competing scores have the best scores of the live documents, so does the answer. -/
theorem gathersBest_of_competing (hlinear : LinearOn numbers)
    (hran : List.Forall₂ EngineShard.Ran engine.shards distribution)
    (hsole : query.useText ≠ query.useVector)
    (hshort : ∀ updates ∈ distribution, ∀ doc ∈ insertedDocuments updates, doc.NoRecordSlots)
    (hnumbers : ∀ result ∈ (query.ranking engine.params).resultsOf (insertedInto distribution),
      numbers ((query.ranking engine.params).key result))
    (qsort : List (UnifiedSearchResult F) → List (UnifiedSearchResult F))
    (h : HaveSameBest (competingScores engine.params query distribution)
      (((query.ranking engine.params).resultsOf (distribution.flatMap liveDocuments)).map
        (query.ranking engine.params).key)) : GathersBest qsort engine query distribution := by
  obtain ⟨scores, hcompeting, hlive⟩ := h
  intro maxResults
  obtain ⟨results, engine', hexec, htop, hsorted⟩ :=
    engineSearch_sole hlinear hran hsole hshort hnumbers qsort maxResults
  refine ⟨results, engine', hexec, ?_, hsorted⟩
  exact hcompeting.transfer hlinear hlive (min_le_right _ _) htop (numbers_competingScores hlinear hnumbers)
    (numbers_part hnumbers fun _ => List.filter_subset_self _)

/-! ## The documents that compete -/

/-- A vector search has a result for every document. -/
theorem map_nodeCosine_vectorResults (queryVec : Vector UInt32 embeddingDim) (entries : List NumberedDocument) :
    ((vectorRanking queryVec : Ranking F).resultsOf entries).map UnifiedSearchResult.nodeCosine =
      nodeCosines queryVec entries := by
  induction entries with
  | nil => rfl
  | cons entry entries ih =>
    have hone : (vectorRanking queryVec : Ranking F).resultsOf (entry :: entries) =
        vectorResult entry.1.nodeId
          ((vectorRanking queryVec : Ranking F).score (entry.1.record entry.2)) ::
            (vectorRanking queryVec : Ranking F).resultsOf entries := rfl
    rw [hone, List.map_cons, ih, nodeCosines, nodeCosines, List.map_cons]
    simp only [vectorResult, UnifiedSearchResult.nodeCosine, vectorRanking, Document.record]

/-- The cosines of documents are the scores of their results. -/
theorem map_snd_nodeCosines (queryVec : Vector UInt32 embeddingDim) (entries : List NumberedDocument) :
    ((nodeCosines queryVec entries).map Prod.snd : List F) =
      ((vectorRanking queryVec).resultsOf entries).map UnifiedSearchResult.cosineScore := by
  rw [← map_nodeCosine_vectorResults, List.map_map]
  rfl

/-- The unmarked documents of the shards are those of the engine. -/
theorem flatten_nodeCosines (queryVec : Vector UInt32 embeddingDim) (distribution : List (List ShardUpdate)) :
    (distribution.map fun updates =>
        (nodeCosines queryVec (unmarkedIn updates) : List (Vector UInt8 16 × F))).flatten =
      nodeCosines queryVec (unmarkedOf distribution) := by
  rw [unmarkedOf, nodeCosines, List.map_flatMap, List.flatMap_def]
  rfl

variable {queryVec : Vector UInt32 embeddingDim}

/-- The cosines of unmarked documents are numbers. -/
theorem numbers_nodeCosines
    (hnumbers : ∀ result ∈ (vectorRanking queryVec : Ranking F).resultsOf (insertedInto distribution),
      numbers result.cosineScore) :
    ∀ part ∈ distribution.map fun updates =>
        (nodeCosines queryVec (unmarkedIn updates) : List (Vector UInt8 16 × F)),
      ∀ entry ∈ part, numbers entry.2 := by
  intro part hpart entry hentry
  have hmem : entry ∈ (nodeCosines queryVec (unmarkedOf distribution) : List (Vector UInt8 16 × F)) := by
    rw [← flatten_nodeCosines]
    exact List.mem_flatten_of_mem hpart hentry
  have hscore := List.mem_map_of_mem (f := Prod.snd) hmem
  rw [map_snd_nodeCosines] at hscore
  exact @numbers_part F _ numbers distribution (vectorRanking queryVec) unmarkedIn hnumbers
    (fun _ => List.filter_subset_self _) _ hscore

/-- What the shards select is a choice of their best documents. -/
theorem bestOfShards_shardBest (hlinear : LinearOn numbers)
    (hnumbers : ∀ result ∈ (vectorRanking queryVec : Ranking F).resultsOf (insertedInto distribution),
      numbers result.cosineScore) :
    BestOfShards queryVec distribution
      (distribution.map fun updates => (shardBest (vectorRanking queryVec : Ranking F) updates).map
        UnifiedSearchResult.nodeCosine) := by
  rw [BestOfShards, List.forall₂_map_left_iff, List.forall₂_map_right_iff, List.forall₂_same]
  intro updates hupdates
  have hbest : IsTopK Prod.snd maxResultsPerShard _
      ((shardBest (vectorRanking queryVec : Ranking F) updates).map UnifiedSearchResult.nodeCosine) :=
    (isTopK_shardBest hlinear hnumbers updates hupdates).map UnifiedSearchResult.nodeCosine fun _ => rfl
  rwa [map_nodeCosine_vectorResults] at hbest

/-- A choice of the best documents is some of the unmarked documents. -/
theorem BestOfShards.exists_rest {kept : List (List (Vector UInt8 16 × F))}
    (h : BestOfShards queryVec distribution kept) :
    ∃ rest, (kept.flatten ++ rest).Perm (nodeCosines queryVec (unmarkedOf distribution)) :=
  flatten_nodeCosines (F := F) queryVec distribution ▸ IsTopK.exists_rest h

/-- The engine keeps a lowest cosine of each node. -/
theorem isLowest_competing (hlinear : LinearOn numbers)
    (hnumbers : ∀ result ∈ (vectorRanking queryVec : Ranking F).resultsOf (insertedInto distribution),
      numbers result.cosineScore) :
    IsLowest (distribution.map fun updates => (shardBest (vectorRanking queryVec : Ranking F) updates).map
        UnifiedSearchResult.nodeCosine).flatten
      (lastOfEachNode ((exchangeSort UnifiedSearchResult.cosineScore
        (distribution.flatMap (shardBest (vectorRanking queryVec : Ranking F)))).map
          UnifiedSearchResult.nodeCosine)) := by
  set gathered := distribution.flatMap (shardBest (vectorRanking queryVec : Ranking F)) with hgathered
  have hflat : (distribution.map fun updates => (shardBest (vectorRanking queryVec : Ranking F) updates).map
      UnifiedSearchResult.nodeCosine).flatten = gathered.map UnifiedSearchResult.nodeCosine := by
    rw [hgathered, List.map_flatMap, List.flatMap_def]
  have hperm : ((exchangeSort UnifiedSearchResult.cosineScore gathered).map UnifiedSearchResult.nodeCosine).Perm
      (gathered.map UnifiedSearchResult.nodeCosine) := (perm_exchangeSort gathered).map _
  have hgatheredNumbers : ∀ result ∈ gathered, numbers result.cosineScore :=
    @numbers_gathered F _ numbers distribution hlinear (vectorRanking queryVec) hnumbers
  have hsorted := pairwise_exchangeSort hlinear hgatheredNumbers
  rw [hflat]
  refine (isLowest_lastOfEachNode hlinear (fun entry hentry => ?_) (List.pairwise_map.mpr hsorted)).congr
    fun entry => hperm.mem_iff
  obtain ⟨result, hresult, rfl⟩ := List.mem_map.mp (hperm.mem_iff.mp hentry)
  exact hgatheredNumbers result hresult

/-- The cosines of a choice are comparable. -/
theorem BestOfShards.numbers_flatten {kept : List (List (Vector UInt8 16 × F))}
    (h : BestOfShards queryVec distribution kept)
    (hnumbers : ∀ result ∈ (vectorRanking queryVec : Ranking F).resultsOf (insertedInto distribution),
      numbers result.cosineScore) : ∀ entry ∈ kept.flatten, numbers entry.2 := by
  intro entry hentry
  obtain ⟨rest, hrest⟩ := IsTopK.exists_rest h
  obtain ⟨part, hpart, hmem⟩ := List.mem_flatten.mp (hrest.mem_iff.mp (List.mem_append_left _ hentry))
  exact numbers_nodeCosines hnumbers part hpart entry hmem

/-- Not exactly one of the unmarked documents is of the node. -/
def isShared (distribution : List (List ShardUpdate)) (nodeId : Vector UInt8 16) : Bool :=
  decide (((unmarkedOf distribution).map fun entry => entry.1.nodeId).count nodeId ≠ 1)

/-- A choice has every node of its own at most once. -/
theorem BestOfShards.nodup_unshared {kept : List (List (Vector UInt8 16 × F))}
    (h : BestOfShards queryVec distribution kept) :
    ((kept.flatten.filter fun entry => !isShared distribution entry.1).map Prod.fst).Nodup := by
  obtain ⟨rest, hrest⟩ := h.exists_rest
  have hfst := (hrest.map Prod.fst).symm
  have hnodes : (nodeCosines queryVec (unmarkedOf distribution) : List (Vector UInt8 16 × F)).map Prod.fst =
      (unmarkedOf distribution).map fun entry => entry.1.nodeId := by
    rw [nodeCosines, List.map_map]
    rfl
  rw [hnodes, List.map_append] at hfst
  rw [List.nodup_iff_count_le_one]
  intro nodeId
  by_cases hshared : isShared distribution nodeId
  · refine (List.count_eq_zero.mpr fun hmem => ?_).le.trans (Nat.zero_le 1)
    obtain ⟨entry, hentry, rfl⟩ := List.mem_map.mp hmem
    have hown := (List.mem_filter.mp hentry).2
    rw [hshared] at hown
    exact absurd hown (by decide)
  · have hone : ((unmarkedOf distribution).map fun entry => entry.1.nodeId).count nodeId = 1 :=
      not_not.mp fun hne => hshared (decide_eq_true hne)
    have hsublist : ((kept.flatten.filter fun entry => !isShared distribution entry.1).map Prod.fst).Sublist
        (kept.flatten.map Prod.fst) := List.filter_sublist.map Prod.fst
    have hcount := hsublist.count_le nodeId
    have htotal := hfst.count_eq nodeId
    rw [List.count_append] at htotal
    omega

/-- When documents that tie for the last place of their shard are the only ones of their nodes, the cosines that
remain do not depend on the choice of the best documents. -/
theorem TiesApart.perm_lowest (h : TiesApart F queryVec distribution) (hlinear : LinearOn numbers)
    (hnumbers : ∀ result ∈ (vectorRanking queryVec : Ranking F).resultsOf (insertedInto distribution),
      numbers result.cosineScore)
    {kept kept' : List (List (Vector UInt8 16 × F))} (hkept : BestOfShards queryVec distribution kept)
    (hkept' : BestOfShards queryVec distribution kept') {lowest lowest' : List (Vector UInt8 16 × F)}
    (hlowest : IsLowest kept.flatten lowest) (hlowest' : IsLowest kept'.flatten lowest') :
    (lowest.map Prod.snd).Perm (lowest'.map Prod.snd) := by
  have hties : ∀ part ∈ distribution.map fun updates =>
      (nodeCosines queryVec (unmarkedIn updates) : List (Vector UInt8 16 × F)), ∀ entry ∈ part,
        isShared distribution entry.1 → ¬TiesAcross Prod.snd maxResultsPerShard part entry := by
    intro part hpart entry hentry hshared hacross
    obtain ⟨updates, hupdates, rfl⟩ := List.mem_map.mp hpart
    exact of_decide_eq_true hshared (h updates hupdates entry hentry hacross)
  -- the choices have the same documents of shared nodes, and the same cosines altogether
  obtain ⟨hsame, hkeys⟩ :=
    IsTopK.flatten_perm_filter hlinear hkept hkept' (numbers_nodeCosines hnumbers) hties
  exact hlowest.perm_keys hlinear hlowest' (hkept.numbers_flatten hnumbers) (hkept'.numbers_flatten hnumbers)
    hsame hkeys hkept.nodup_unshared hkept'.nodup_unshared

/-- The competing scores are those of documents of the best of each shard. -/
theorem SameBest.competing (hlinear : LinearOn numbers) {params : Bm25fParams F}
    (hnumbers : ∀ result ∈ (query.ranking params).resultsOf (insertedInto distribution),
      numbers ((query.ranking params).key result)) (h : SameBest params query distribution) :
    HaveSameBest (competingScores params query distribution)
      (((query.ranking params).resultsOf (distribution.flatMap liveDocuments)).map (query.ranking params).key) := by
  rw [SameBest] at h
  rw [competingScores, UnifiedQuery.ranking]
  rw [UnifiedQuery.ranking] at hnumbers
  cases htext : query.useText with
  | true =>
    rw [htext, if_pos rfl] at h
    exact h
  | false =>
    rw [htext, if_neg Bool.false_ne_true] at h hnumbers
    have hbest := h _ _ (bestOfShards_shardBest hlinear hnumbers) (isLowest_competing hlinear hnumbers)
    rw [map_snd_nodeCosines] at hbest
    exact hbest

/-- The best of the competing scores tell which documents are the best, when ties do not matter. -/
theorem sameBest_of_competing (hlinear : LinearOn numbers) {params : Bm25fParams F}
    (hnumbers : ∀ result ∈ (query.ranking params).resultsOf (insertedInto distribution),
      numbers ((query.ranking params).key result))
    (hties : query.useText = false → TiesApart F query.queryEmbedding distribution)
    (h : HaveSameBest (competingScores params query distribution)
      (((query.ranking params).resultsOf (distribution.flatMap liveDocuments)).map (query.ranking params).key)) :
    SameBest params query distribution := by
  rw [competingScores, UnifiedQuery.ranking] at h
  rw [UnifiedQuery.ranking] at hnumbers
  rw [SameBest]
  cases htext : query.useText with
  | true =>
    rw [htext, if_pos rfl, if_pos rfl] at h
    exact h
  | false =>
    rw [htext, if_neg Bool.false_ne_true] at hnumbers
    rw [htext, if_neg Bool.false_ne_true, if_neg Bool.false_ne_true] at h
    obtain ⟨best, hcompeting, hlive⟩ := h
    intro kept lowest hkept hlowest
    have hperm := (hties htext).perm_lowest hlinear hnumbers (bestOfShards_shardBest hlinear hnumbers) hkept
      (isLowest_competing hlinear hnumbers) hlowest
    refine ⟨best, hcompeting.of_perm hperm, ?_⟩
    rw [map_snd_nodeCosines]
    exact hlive

/-- The documents have the best scores of the live documents when the tombstones mark exactly the deleted documents
and, for a vector search, the live documents are of different nodes. -/
theorem sameBest_of_unmarked (hlinear : LinearOn numbers) {params : Bm25fParams F}
    (hnumbers : ∀ result ∈ (query.ranking params).resultsOf (insertedInto distribution),
      numbers ((query.ranking params).key result))
    (hlive : unmarkedOf distribution = distribution.flatMap liveDocuments)
    (hdistinct : query.useText = false →
      ((distribution.flatMap liveDocuments).map fun entry => entry.1.nodeId).Nodup) :
    SameBest params query distribution := by
  rw [SameBest]
  rw [UnifiedQuery.ranking] at hnumbers
  cases htext : query.useText with
  | true =>
    rw [htext, if_pos rfl] at hnumbers
    rw [if_pos rfl, hlive]
    have hscores := @numbers_part F _ numbers distribution (textRanking params) liveDocuments hnumbers
      fun _ => List.filter_subset_self _
    have htop := isTopK_offerAll hlinear maxResultsPerShard hscores
    exact ⟨_, htop, htop⟩
  | false =>
    rw [htext, if_neg Bool.false_ne_true] at hnumbers
    rw [if_neg Bool.false_ne_true]
    intro kept lowest hkept hlowest
    have hcosines := numbers_nodeCosines hnumbers
    have hall : ∀ entry ∈ (nodeCosines query.queryEmbedding (unmarkedOf distribution) :
        List (Vector UInt8 16 × F)), numbers entry.2 := by
      intro entry hentry
      rw [← flatten_nodeCosines] at hentry
      obtain ⟨part, hpart, hmem⟩ := List.mem_flatten.mp hentry
      exact hcosines part hpart entry hmem
    obtain ⟨rest, hrest⟩ := hkept.exists_rest
    have hkeptNumbers : ∀ entry ∈ kept.flatten, numbers entry.2 := fun entry hentry =>
      hall entry (hrest.mem_iff.mp (List.mem_append_left _ hentry))
    -- all that is chosen is of different nodes
    have hnodes : (kept.flatten.map Prod.fst).Nodup := by
      have hmap := (hrest.map Prod.fst).nodup_iff.mpr (by
        rw [nodeCosines, List.map_map, hlive]
        exact hdistinct htext)
      rw [List.map_append] at hmap
      exact hmap.of_append_left
    have hperm := hlowest.perm hlinear (.of_nodup hlinear hkeptNumbers hnodes) hkeptNumbers fun _ => Iff.rfl
    have hbest := @isTopK_offerAll _ _ _ _ Prod.snd _ hlinear maxResultsPerShard _ hkeptNumbers
    have hwhole := IsTopK.flatten hlinear (le_refl maxResultsPerShard) hkept hbest (by rwa [flatten_nodeCosines])
    rw [flatten_nodeCosines, hlive] at hwhole
    exact ⟨_, hbest.keys.of_perm (hperm.map Prod.snd).symm, hwhole.keys⟩

end Gathering

/-! ## Running engines -/

/-- There is an engine whose shards ran the calls, and it scores with the exact parameters. -/
theorem exists_engine_ran {distribution : List (List ShardUpdate)}
    (hfits : ∀ updates ∈ distribution, (ShardView.fresh.updates updates).nextPageId < invalidPageId)
    (hshort : ∀ updates ∈ distribution, ∀ doc ∈ insertedDocuments updates, doc.NoRecordSlots) :
    ∃ engine : UnifiedEngine ℚ, List.Forall₂ EngineShard.Ran engine.shards distribution ∧
      engine.params = exactParams := by
  have hshards : ∃ shards : List (EngineShard ℚ), List.Forall₂ EngineShard.Ran shards distribution := by
    induction distribution with
    | nil => exact ⟨[], List.Forall₂.nil⟩
    | cons updates distribution ih =>
      obtain ⟨shards, hshards⟩ := ih (fun others h => hfits others (List.mem_cons_of_mem _ h))
        fun others h => hshort others (List.mem_cons_of_mem _ h)
      have hfree : Host.empty.FaultFree := ⟨rfl, rfl, rfl, rfl⟩
      have hpool : UsablePool 0 2 0 := ⟨le_refl 0, le_refl 2, by decide, by decide⟩
      have hupdates := hfits updates List.mem_cons_self
      obtain ⟨shard, machine, -, hexec, -⟩ := exec_runFreshShard_searched (F := ℚ) hfree rfl ⟨3, 0⟩ hpool
        hupdates (hshort updates List.mem_cons_self)
      have hran : EngineShard.Ran ⟨shard, machine⟩ updates :=
        ⟨hupdates, Host.empty, ⟨3, 0⟩, 0, 2, 0, hfree, rfl, hpool, hexec⟩
      exact ⟨⟨shard, machine⟩ :: shards, List.Forall₂.cons hran hshards⟩
  obtain ⟨shards, hshards⟩ := hshards
  exact ⟨⟨shards, 0, exactParams.avgdl, exactParams.weights, exactParams.k1, exactParams.b⟩, hshards, rfl⟩

/-- A query for term 7, and a query for the zero vector. -/
def textQuery : UnifiedQuery := ⟨[7], false, Vector.replicate embeddingDim 0, true, false⟩

@[inherit_doc textQuery]
def vectorQuery : UnifiedQuery := ⟨[], false, Vector.replicate embeddingDim 0, false, true⟩

/-- Four documents in two shards, of which one is deleted. -/
def threeDocuments : List (List ShardUpdate) :=
  [[.insert (.ofTerms 1 1 [3] (by decide)), .insert (.ofTerms 3 2 [7, 3] (by decide))],
    [.insert (.ofTerms 2 3 [4, 7] (by decide)), .insert (.ofTerms 1 4 [4] (by decide)), .delete 1]]

end FtsUring
