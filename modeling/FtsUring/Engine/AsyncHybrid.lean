import FtsUring.Engine.AsyncTerms
import FtsUring.Engine.Fusion

/-!
# Hybrid queries in a thread pool

The work of a shard ranks the results of its two searches, adds up the reciprocals of the ranks of a node and keeps
the nodes with the largest sums. Then the results of all shards are taken apart again: a node with a text score
counts as a result of the text search only, with the rank of its cosine within its shard, and the others count as
results of the vector search.

When no shard has more than 64 live documents nothing is cut off on the way, and every document that a text score
or a cosine speaks for is in the answer exactly once, with its own scores.
-/

namespace FtsUring

open Foundation

variable {F : Type} [Double F]

/-! ## Fusing the results of a shard -/

/-- The results of a shard before they are sorted. -/
def mergedRrf (bm25 vec : List (UnifiedSearchResult F)) : List (UnifiedSearchResult F) :=
  vec.zipIdx.foldl mergeRrfVector (bm25.mapIdx rankedText)

/-- A result of the text search with its place. -/
def placedText (i : ℕ) (result : UnifiedSearchResult F) : UnifiedSearchResult F :=
  { result with bm25fRank := UInt32.ofNat (i + 1) }

/-- A result of the vector search with its place. -/
def placedVector (i : ℕ) (result : UnifiedSearchResult F) : UnifiedSearchResult F :=
  { result with cosineRank := UInt32.ofNat (i + 1) }

/-- The sum of the reciprocals of the ranks that a result has. -/
def rankShares (result : UnifiedSearchResult F) : F :=
  if result.bm25fRank = 0 then reciprocalRank result.cosineRank
  else if result.cosineRank = 0 then reciprocalRank result.bm25fRank
  else reciprocalRank result.bm25fRank + reciprocalRank result.cosineRank

/-- Apart from the fused scores, a step of this merge is one of the other merge. -/
theorem map_unfused_mergeRrfVector (merged : List (UnifiedSearchResult F)) (result : UnifiedSearchResult F) (i : ℕ) :
    (mergeRrfVector merged (result, i)).map UnifiedSearchResult.unfused =
      mergeVector (merged.map UnifiedSearchResult.unfused) (placedVector i result).unfused := by
  have hfind : (merged.map UnifiedSearchResult.unfused).findIdx?
      (fun other => other.nodeId = (placedVector i result).unfused.nodeId) =
        merged.findIdx? fun other => other.nodeId = result.nodeId := by
    rw [List.findIdx?_map]
    rfl
  rw [mergeRrfVector, mergeVector, hfind]
  cases merged.findIdx? fun other => other.nodeId = result.nodeId with
  | none => rw [List.map_append]; rfl
  | some j =>
    apply List.ext_getElem?
    intro m
    dsimp only
    rw [List.getElem?_map, List.getElem?_modify, List.getElem?_modify, List.getElem?_map]
    by_cases hjm : j = m
    · simp only [hjm, if_true]
      cases merged[m]? <;> rfl
    · simp [hjm]

/-- Apart from the fused scores, its steps are those of the other merge. -/
theorem map_unfused_foldl_mergeRrfVector (entries : List (UnifiedSearchResult F × ℕ))
    (start : List (UnifiedSearchResult F)) : (entries.foldl mergeRrfVector start).map UnifiedSearchResult.unfused =
      (entries.map fun entry => (placedVector entry.2 entry.1).unfused).foldl mergeVector
        (start.map UnifiedSearchResult.unfused) := by
  induction entries generalizing start with
  | nil => rfl
  | cons entry entries ih =>
    rw [List.foldl_cons, ih, map_unfused_mergeRrfVector, List.map_cons, List.foldl_cons]

/-- The results of the text search with their places and without fused scores. -/
def numberedText (bm25 : List (UnifiedSearchResult F)) : List (UnifiedSearchResult F) :=
  bm25.mapIdx fun i result => (placedText i result).unfused

/-- The results of the vector search with their places and without fused scores. -/
def numberedVector (vec : List (UnifiedSearchResult F)) : List (UnifiedSearchResult F) :=
  vec.mapIdx fun i result => (placedVector i result).unfused

/-- Apart from the fused scores, this merge is the other merge. -/
theorem map_unfused_mergedRrf (bm25 vec : List (UnifiedSearchResult F)) :
    (mergedRrf bm25 vec).map UnifiedSearchResult.unfused =
      (numberedVector vec).foldl mergeVector (numberedText bm25) := by
  have htext : (bm25.mapIdx rankedText).map UnifiedSearchResult.unfused = numberedText bm25 := by
    apply List.ext_getElem?
    intro i
    simp only [numberedText, List.getElem?_map, List.getElem?_mapIdx, Option.map_map]
    rfl
  have hvector : vec.zipIdx.map (fun entry => (placedVector entry.2 entry.1).unfused) = numberedVector vec := by
    apply List.ext_getElem?
    intro i
    simp only [numberedVector, List.getElem?_map, List.getElem?_zipIdx, List.getElem?_mapIdx, Option.map_map,
      Nat.zero_add]
    rfl
  rw [mergedRrf, map_unfused_foldl_mergeRrfVector, htext, hvector]

/-- A result of the text search at its place. -/
theorem getElem?_numberedText {bm25 : List (UnifiedSearchResult F)} {i : ℕ} {result : UnifiedSearchResult F}
    (h : (numberedText bm25)[i]? = some result) :
    ∃ other ∈ bm25, i < bm25.length ∧ result = (placedText i other).unfused := by
  rw [numberedText, List.getElem?_mapIdx] at h
  obtain ⟨other, hother, rfl⟩ := Option.map_eq_some_iff.mp h
  exact ⟨other, List.mem_of_getElem? hother, (List.getElem?_eq_some_iff.mp hother).1, rfl⟩

/-- A result of the vector search at its place. -/
theorem getElem?_numberedVector {vec : List (UnifiedSearchResult F)} {i : ℕ} {result : UnifiedSearchResult F}
    (h : (numberedVector vec)[i]? = some result) :
    ∃ other ∈ vec, i < vec.length ∧ result = (placedVector i other).unfused := by
  rw [numberedVector, List.getElem?_mapIdx] at h
  obtain ⟨other, hother, rfl⟩ := Option.map_eq_some_iff.mp h
  exact ⟨other, List.mem_of_getElem? hother, (List.getElem?_eq_some_iff.mp hother).1, rfl⟩

/-- The nodes and the scores of the texts stay. -/
theorem map_numberedText_pair (bm25 : List (UnifiedSearchResult F)) :
    (numberedText bm25).map (fun result => (result.nodeId, result.bm25fScore)) =
      bm25.map fun result => (result.nodeId, result.bm25fScore) := by
  rw [numberedText]
  apply map_mapIdx_eq
  intro i result
  rfl

/-- The nodes and the cosines stay. -/
theorem map_numberedVector_pair (vec : List (UnifiedSearchResult F)) :
    (numberedVector vec).map (fun result => (result.nodeId, result.cosineScore)) =
      vec.map fun result => (result.nodeId, result.cosineScore) := by
  rw [numberedVector]
  apply map_mapIdx_eq
  intro i result
  rfl

omit [Double F] in
/-- Lists with the same nodes and scores have the same nodes. -/
theorem map_nodeId_of_pair {key : UnifiedSearchResult F → F} {results others : List (UnifiedSearchResult F)}
    (hsame : results.map (fun result => (result.nodeId, key result)) =
      others.map fun result => (result.nodeId, key result)) :
    results.map UnifiedSearchResult.nodeId = others.map UnifiedSearchResult.nodeId := by
  have hnodes := congrArg (List.map Prod.fst) hsame
  rwa [List.map_map, List.map_map] at hnodes

/-- The merged results have every node once, with its places in the two lists. -/
theorem mergesLists_mergedRrf {bm25 vec : List (UnifiedSearchResult F)}
    (hbm25 : (bm25.map UnifiedSearchResult.nodeId).Nodup) (hvec : (vec.map UnifiedSearchResult.nodeId).Nodup)
    (hbm25New : ∀ result ∈ bm25, result.cosineRank = 0 ∧ result.cosineScore = 0)
    (hvecNew : ∀ result ∈ vec, result.bm25fRank = 0 ∧ result.bm25fScore = 0)
    (hbm25Few : bm25.length < 2 ^ 32) (hvecFew : vec.length < 2 ^ 32) :
    MergesLists bm25 vec (mergedRrf bm25 vec) := by
  have hrank : ∀ i count : ℕ, i < count → count < 2 ^ 32 → (UInt32.ofNat (i + 1)).toNat = i + 1 := by
    intro i count hi hcount
    rw [UInt32.toNat_ofNat', Nat.mod_eq_of_lt (by omega)]
  have hnodes := map_nodeId_of_pair (map_numberedText_pair bm25)
  have hnodes' := map_nodeId_of_pair (map_numberedVector_pair vec)
  have hmerges : MergesLists (numberedText bm25) (numberedVector vec)
      ((numberedVector vec).foldl mergeVector (numberedText bm25)) := by
    refine mergesLists_foldl (hnodes ▸ hbm25) ?_ ?_ (hnodes' ▸ hvec) ?_ ?_
    · intro i result hresult
      obtain ⟨other, -, hi, rfl⟩ := getElem?_numberedText hresult
      exact hrank i _ hi hbm25Few
    · intro result hresult
      obtain ⟨i, hi⟩ := List.mem_iff_getElem?.mp hresult
      obtain ⟨other, hother, -, rfl⟩ := getElem?_numberedText hi
      exact hbm25New other hother
    · intro i result hresult
      obtain ⟨other, -, hi, rfl⟩ := getElem?_numberedVector hresult
      exact hrank i _ hi hvecFew
    · intro result hresult
      obtain ⟨i, hi⟩ := List.mem_iff_getElem?.mp hresult
      obtain ⟨other, hother, -, rfl⟩ := getElem?_numberedVector hi
      exact hvecNew other hother
  rw [← map_unfused_mergedRrf] at hmerges
  have hmerged : ((mergedRrf bm25 vec).map UnifiedSearchResult.unfused).map UnifiedSearchResult.nodeId =
      (mergedRrf bm25 vec).map UnifiedSearchResult.nodeId := List.map_map
  have hunfused : ∀ result ∈ mergedRrf bm25 vec,
      result.unfused ∈ (mergedRrf bm25 vec).map UnifiedSearchResult.unfused :=
    fun result hresult => List.mem_map_of_mem hresult
  refine ⟨hmerged ▸ hmerges.nodup, fun nodeId => ?_, fun result hresult => ?_, fun result hresult => ?_⟩
  · rw [← hmerged, hmerges.mem_iff, hnodes, hnodes']
  · exact (hmerges.text _ (hunfused result hresult)).congr (map_numberedText_pair bm25)
  · exact (hmerges.vector _ (hunfused result hresult)).congr (map_numberedVector_pair vec)

/-- A result of the text search with its share of a node of the vector search. -/
def UnifiedSearchResult.withCosine (entry : UnifiedSearchResult F × ℕ) (other : UnifiedSearchResult F) :
    UnifiedSearchResult F :=
  { other with
    cosineScore := entry.1.cosineScore
    cosineRank := UInt32.ofNat (entry.2 + 1)
    rrfScore := other.rrfScore + reciprocalRank (UInt32.ofNat (entry.2 + 1)) }

/-- A result of the vector search with its place and its share of the fused score. -/
def rankedVector (entry : UnifiedSearchResult F × ℕ) : UnifiedSearchResult F :=
  { entry.1 with
    cosineRank := UInt32.ofNat (entry.2 + 1)
    rrfScore := reciprocalRank (UInt32.ofNat (entry.2 + 1)) }

/-- Merging is changing or adding one result for each of the vector search. -/
theorem foldl_mergeRrfVector_eq (entries : List (UnifiedSearchResult F × ℕ)) (start : List (UnifiedSearchResult F)) :
    entries.foldl mergeRrfVector start = upsertAll UnifiedSearchResult.nodeId (fun entry => entry.1.nodeId)
      UnifiedSearchResult.withCosine rankedVector entries start := rfl

/-- A place as a rank is not zero. -/
theorem rank_ne_zero {i count : ℕ} (hi : i < count) (hcount : count < 2 ^ 32) : UInt32.ofNat (i + 1) ≠ 0 := by
  intro hzero
  have hnat := congrArg UInt32.toNat hzero
  rw [UInt32.toNat_ofNat', Nat.mod_eq_of_lt (by omega)] at hnat
  exact Nat.succ_ne_zero i hnat

/-- The fused scores are the sums of the reciprocals of the ranks, and the nodes that were only found by the text
search have no rank in the vector search. -/
theorem rankShares_foldl {start : List (UnifiedSearchResult F)} {entries : List (UnifiedSearchResult F × ℕ)}
    (hstart : (start.map UnifiedSearchResult.nodeId).Nodup)
    (hfirst : ∀ result ∈ start,
      result.rrfScore = rankShares result ∧ result.cosineRank = 0 ∧ result.bm25fRank ≠ 0)
    (hentries : (entries.map fun entry => entry.1.nodeId).Nodup)
    (hnew : ∀ entry ∈ entries, entry.1.bm25fRank = 0 ∧ UInt32.ofNat (entry.2 + 1) ≠ 0) :
    ∀ result ∈ entries.foldl mergeRrfVector start, result.rrfScore = rankShares result ∧
      (result.nodeId ∉ entries.map (fun entry => entry.1.nodeId) →
        result.cosineRank = 0 ∧ result.bm25fRank ≠ 0) := by
  induction entries using List.reverseRecOn with
  | nil => exact fun result hresult => ⟨(hfirst result hresult).1, fun _ => (hfirst result hresult).2⟩
  | append_singleton entries entry ih =>
    rw [List.map_append, List.map_singleton] at hentries ⊢
    have hbefore := ih hentries.of_append_left fun other hother => hnew other (List.mem_append_left _ hother)
    have hlast : entry.1.nodeId ∉ entries.map fun other => other.1.nodeId := by
      intro hmem
      rw [List.nodup_append] at hentries
      exact hentries.2.2 _ hmem _ (List.mem_singleton_self _) rfl
    obtain ⟨hplain, hrank⟩ := hnew entry (List.mem_append_right _ (List.mem_singleton_self entry))
    intro result hresult
    rw [foldl_mergeRrfVector_eq, upsertAll_concat, ← foldl_mergeRrfVector_eq] at hresult
    have hnodup : ((entries.foldl mergeRrfVector start).map UnifiedSearchResult.nodeId).Nodup :=
      nodup_upsertAll (fun _ _ hx => hx) (fun _ => rfl) hstart
    have hcases := @mem_upsert _ _ _ UnifiedSearchResult.nodeId entry.1.nodeId (UnifiedSearchResult.withCosine entry)
      (rankedVector entry) _ (fun _ hx => hx) rfl hnodup result hresult
    rw [List.mem_append, List.mem_singleton, not_or]
    obtain ⟨hold, hother⟩ | ⟨other, hold, hsame, rfl⟩ | ⟨-, rfl⟩ := hcases
    · exact ⟨(hbefore result hold).1, fun hnot => (hbefore result hold).2 hnot.1⟩
    · obtain ⟨hshares, hranks⟩ := hbefore other hold
      obtain ⟨hcosine, htext⟩ := hranks (hsame ▸ hlast)
      refine ⟨?_, fun hnot => absurd hsame hnot.2⟩
      rw [rankShares, if_neg htext, if_pos hcosine] at hshares
      rw [rankShares, if_neg (by exact htext), if_neg (by exact hrank)]
      exact congrArg (· + reciprocalRank (UInt32.ofNat (entry.2 + 1))) hshares
    · refine ⟨?_, fun hnot => absurd rfl hnot.2⟩
      rw [rankShares, if_pos (by exact hplain)]
      rfl

/-- The fused scores are the sums of the reciprocals of the places. -/
theorem rrfScore_mergedRrf {bm25 vec : List (UnifiedSearchResult F)}
    (hbm25 : (bm25.map UnifiedSearchResult.nodeId).Nodup) (hvec : (vec.map UnifiedSearchResult.nodeId).Nodup)
    (hbm25New : ∀ result ∈ bm25, result.cosineRank = 0) (hvecNew : ∀ result ∈ vec, result.bm25fRank = 0)
    (hbm25Few : bm25.length < 2 ^ 32) (hvecFew : vec.length < 2 ^ 32) :
    ∀ result ∈ mergedRrf bm25 vec, result.rrfScore = rankShares result := by
  have hstart : (bm25.mapIdx rankedText).map UnifiedSearchResult.nodeId = bm25.map UnifiedSearchResult.nodeId := by
    apply map_mapIdx_eq
    intro i result
    rfl
  have hentries : vec.zipIdx.map (fun entry => entry.1.nodeId) = vec.map UnifiedSearchResult.nodeId := by
    conv_rhs => rw [← List.zipIdx_map_fst 0 vec, List.map_map]
    rfl
  intro result hresult
  refine (rankShares_foldl (hstart ▸ hbm25) ?_ (hentries ▸ hvec) ?_ result hresult).1
  · intro other hother
    obtain ⟨i, hi⟩ := List.mem_iff_getElem?.mp hother
    rw [List.getElem?_mapIdx] at hi
    obtain ⟨text, htext, rfl⟩ := Option.map_eq_some_iff.mp hi
    have hrank : (rankedText i text).bm25fRank ≠ 0 := rank_ne_zero (List.getElem?_eq_some_iff.mp htext).1 hbm25Few
    have hcosine : (rankedText i text).cosineRank = 0 := hbm25New text (List.mem_of_getElem? htext)
    refine ⟨?_, hcosine, hrank⟩
    rw [rankShares, if_neg hrank, if_pos hcosine]
    rfl
  · intro entry hentry
    exact ⟨hvecNew _ (List.fst_mem_of_mem_zipIdx hentry),
      rank_ne_zero (by simpa using List.snd_lt_of_mem_zipIdx hentry) hvecFew⟩

/-- The work of a shard for a hybrid query keeps the nodes with the largest fused scores: every node of the two
lists is merged once, with its places in them, and its fused score is the sum of the reciprocals of these. -/
theorem mergeRrf_best {numbers : F → Prop} (hlinear : LinearOn numbers)
    (hnumbers : ∀ result : UnifiedSearchResult F, numbers (rankShares result))
    {bm25 vec : List (UnifiedSearchResult F)}
    (hbm25 : (bm25.map UnifiedSearchResult.nodeId).Nodup) (hvec : (vec.map UnifiedSearchResult.nodeId).Nodup)
    (hbm25New : ∀ result ∈ bm25, result.cosineRank = 0 ∧ result.cosineScore = 0)
    (hvecNew : ∀ result ∈ vec, result.bm25fRank = 0 ∧ result.bm25fScore = 0)
    (hbm25Few : bm25.length < 2 ^ 32) (hvecFew : vec.length < 2 ^ 32) (maxOut : ℕ) :
    ∃ merged, MergesLists bm25 vec merged ∧ (∀ result ∈ merged, result.rrfScore = rankShares result) ∧
      IsTopK UnifiedSearchResult.rrfScore maxOut merged (mergeRrf bm25 vec maxOut) ∧
      (mergeRrf bm25 vec maxOut).Pairwise fun a b => ¬a.rrfScore < b.rrfScore := by
  have hshares := rrfScore_mergedRrf hbm25 hvec (fun result hresult => (hbm25New result hresult).1)
    (fun result hresult => (hvecNew result hresult).1) hbm25Few hvecFew
  have hsorted := @pairwise_exchangeSort _ _ _ _ UnifiedSearchResult.rrfScore numbers hlinear (mergedRrf bm25 vec)
    fun result hresult => hshares result hresult ▸ hnumbers result
  refine ⟨mergedRrf bm25 vec, mergesLists_mergedRrf hbm25 hvec hbm25New hvecNew hbm25Few hvecFew, hshares, ?_,
    hsorted.sublist (List.take_sublist _ _)⟩
  exact (isTopK_take_of_pairwise hsorted maxOut).of_perm (perm_exchangeSort _)

/-- One node in both lists, and one in the vector search only. -/
theorem mergeRrf_best_two_nodes : ∃ merged, MergesLists [textResult (Vector.replicate 16 1) (3 : ℚ)]
    [vectorResult (Vector.replicate 16 2) 1, vectorResult (Vector.replicate 16 1) 0] merged ∧
      (∀ result ∈ merged, result.rrfScore = rankShares result) ∧
      IsTopK UnifiedSearchResult.rrfScore 1 merged (mergeRrf [textResult (Vector.replicate 16 1) (3 : ℚ)]
        [vectorResult (Vector.replicate 16 2) 1, vectorResult (Vector.replicate 16 1) 0] 1) ∧
      (mergeRrf [textResult (Vector.replicate 16 1) (3 : ℚ)]
        [vectorResult (Vector.replicate 16 2) 1, vectorResult (Vector.replicate 16 1) 0] 1).Pairwise
          fun a b => ¬a.rrfScore < b.rrfScore :=
  mergeRrf_best (linearOn_rat fun _ => True) (fun _ => trivial) (by decide) (by decide) (by decide) (by decide)
    (by decide) (by decide) 1

/-! ## The work of a shard -/

/-- The terms that a query searches for. A query without terms searches for term 0, which every document has. -/
def UnifiedQuery.searchedTerms (query : UnifiedQuery) : List UInt32 :=
  if query.termIds = [] then [0] else query.termIds

/-- The text score that a document has for a query. -/
def Document.queryScore (params : Bm25fParams F) (query : UnifiedQuery) (doc : Document) : F :=
  if 0 < doc.hits query.searchedTerms ∧ 0 < doc.textScore params then doc.summedScore params query.searchedTerms
  else 0

/-- The node of a document with its text score and its cosine. -/
def Document.scores (params : Bm25fParams F) (query : UnifiedQuery) (doc : Document) : Vector UInt8 16 × F × F :=
  (doc.nodeId, doc.queryScore params query, computeCosineSimilarity query.queryEmbedding doc.embedding)

/-- The node of a result with its text score and its cosine. -/
def UnifiedSearchResult.scores (result : UnifiedSearchResult F) : Vector UInt8 16 × F × F :=
  (result.nodeId, result.bm25fScore, result.cosineScore)

/-- The results for one term are those for a query of this term. -/
theorem termResults_eq (params : Bm25fParams F) (termId : UInt32) (docs : List Document) :
    termResults params termId docs = (foundBy params [termId] docs).map (summedResult params [termId]) := by
  have hone : ∀ doc : Document, doc.hits [termId] = if doc.PostedUnder termId then 1 else 0 := by
    intro doc
    rw [Document.hits, List.countP_singleton]
    simp
  have hfound : (docs.filter fun doc => doc.PostedUnder termId ∧ 0 < doc.textScore params) =
      foundBy params [termId] docs := by
    refine List.filter_congr fun doc _ => decide_eq_decide.mpr ?_
    rw [hone]
    by_cases hposted : doc.PostedUnder termId <;> simp [hposted]
  rw [termResults, hfound]
  refine List.map_congr_left fun doc hdoc => ?_
  have hhits : doc.hits [termId] = 1 := by
    have hpositive := (of_decide_eq_true (List.mem_filter.mp hdoc).2).1
    rw [hone] at hpositive ⊢
    split_ifs at hpositive ⊢
    · rfl
    · exact absurd hpositive (lt_irrefl 0)
  rw [summedResult, Document.summedScore, hhits]
  rfl

section Shards

variable {updates : List ShardUpdate} {pages : PageArray} {params : Bm25fParams F} {query : UnifiedQuery}

/-- The text search of a small shard finds the live documents with a term of the query. -/
theorem SmallShard.exec_searchText (hsmall : SmallShard updates)
    (hpages : ShardAt pages (ShardView.fresh.updates updates)) (hlinear : LinearOn fun score : F => 0 < score)
    (hnodes : ((liveDocuments updates).map fun entry => entry.1.nodeId).Nodup)
    (hphrase : query.isPhrase = false ∨ query.termIds.length ≤ 1)
    (hfew : (foundBy params query.searchedTerms ((liveDocuments updates).map Prod.fst)).length ≤ maxResultsPerShard) :
    ∃ results : List (UnifiedSearchResult F),
      arrayHandler.exec (searchText params query) pages = some (results, pages) ∧
      results.Perm ((foundBy params query.searchedTerms ((liveDocuments updates).map Prod.fst)).map
        (summedResult params query.searchedTerms)) := by
  by_cases hterms : query.termIds.length ≤ 1
  · have hsearched : query.searchedTerms = [query.termIds.headD 0] := by
      rw [UnifiedQuery.searchedTerms]
      cases hquery : query.termIds with
      | nil => rfl
      | cons termId others =>
        rw [hquery, List.length_cons] at hterms
        rw [List.length_eq_zero_iff.mp (show others.length = 0 by omega)]
        rfl
    rw [hsearched] at hfew ⊢
    obtain ⟨results, hexec, htop⟩ := hsmall.exec_indexed hpages hlinear (query.termIds.headD 0) params
    rw [resultsOf_postedLive, termResults_eq] at htop
    have hperm := htop.perm_of_length_le (by rwa [List.length_map])
    refine ⟨results, exec_searchText_oneTerm hterms hexec ?_ ?_, hperm⟩
    · rw [(hperm.map _).nodup_iff, List.map_map]
      have hlive : (((liveDocuments updates).map Prod.fst).map Document.nodeId).Nodup := by
        rw [List.map_map]
        exact hnodes
      exact hlive.sublist (List.filter_sublist.map _)
    · rwa [hperm.length_eq, List.length_map]
  · have hnonempty : query.termIds ≠ [] := fun hnil => hterms (by rw [hnil]; decide)
    have hsearched : query.searchedTerms = query.termIds := if_neg hnonempty
    rw [hsearched] at hfew ⊢
    rw [searchText_terms (hphrase.resolve_right hterms) hnonempty]
    exact hsmall.exec_searchTerms hpages hlinear hnodes hfew

/-- The vector search of a small shard with few documents finds all of them. -/
theorem SmallShard.exec_searchVector (hsmall : SmallShard updates)
    (hpages : ShardAt pages (ShardView.fresh.updates updates)) (queryVec : Vector UInt32 embeddingDim)
    (hfew : (liveDocuments updates).length ≤ maxResultsPerShard) : ∃ results : List (UnifiedSearchResult F),
      arrayHandler.exec (shardSearchVector queryVec maxResultsPerShard) pages = some (results, pages) ∧
      results.Perm (((liveDocuments updates).map Prod.fst).map fun doc =>
        vectorResult doc.nodeId (computeCosineSimilarity queryVec doc.embedding)) := by
  have hall : ∀ entries : List NumberedDocument, (vectorRanking queryVec).resultsOf entries =
      (entries.map Prod.fst).map fun doc =>
        (vectorResult doc.nodeId (computeCosineSimilarity queryVec doc.embedding) : UnifiedSearchResult F) := by
    intro entries
    have hone : ∀ entry : NumberedDocument, (vectorRanking queryVec).resultOf (entry.1.record entry.2) =
        some (vectorResult entry.1.nodeId (computeCosineSimilarity queryVec entry.1.embedding) :
          UnifiedSearchResult F) := fun _ => resultOf_vectorRanking _ _
    rw [Ranking.resultsOf, List.map_map]
    simp only [hone]
    exact congrFun List.filterMap_eq_map entries
  refine ⟨_, (hsmall.searched hpages).scan (vectorRanking queryVec) (by decide), ?_⟩
  rw [hsmall.unmarked_all, offerAll_of_room, List.nil_append, hall]
  · exact perm_exchangeSort _
  · rw [hall, List.length_map, List.length_map, List.length_nil, Nat.zero_add]
    exact hfew

/-- The cosine of a result of the vector search. -/
theorem cosineScore_vectorResult (nodeId : Vector UInt8 16) (score : F) :
    (vectorResult nodeId score).cosineScore = score := rfl

/-- A merged result has the scores of the document with its node. -/
theorem scores_of_mergesLists {docs : List Document} (hnodes : (docs.map Document.nodeId).Nodup)
    {text vec merged : List (UnifiedSearchResult F)} (hmerges : MergesLists text vec merged)
    (htext : text.Perm ((foundBy params query.searchedTerms docs).map (summedResult params query.searchedTerms)))
    (hvec : vec.Perm (docs.map fun doc =>
      vectorResult doc.nodeId (computeCosineSimilarity query.queryEmbedding doc.embedding)))
    {result : UnifiedSearchResult F} (hresult : result ∈ merged) {doc : Document} (hdoc : doc ∈ docs)
    (hsame : doc.nodeId = result.nodeId) : result.scores = doc.scores params query := by
  have hlisted : vectorResult doc.nodeId (computeCosineSimilarity query.queryEmbedding doc.embedding) ∈ vec :=
    hvec.mem_iff.mpr (List.mem_map.mpr ⟨doc, hdoc, rfl⟩)
  have hcosine := (hmerges.vector result hresult).score_listed _ hlisted hsame
  rw [cosineScore_vectorResult] at hcosine
  have hbm25 : result.bm25fScore = doc.queryScore params query := by
    rw [Document.queryScore]
    split_ifs with hcounts
    · have hfound : doc ∈ foundBy params query.searchedTerms docs :=
        List.mem_filter.mpr ⟨hdoc, decide_eq_true hcounts⟩
      exact (hmerges.text result hresult).score_listed _ (htext.mem_iff.mpr (List.mem_map_of_mem hfound)) hsame
    · refine (hmerges.text result hresult).score_absent fun hmem => hcounts ?_
      obtain ⟨other, hother, hnode⟩ := List.mem_map.mp hmem
      obtain ⟨found, hfound, rfl⟩ := List.mem_map.mp (htext.mem_iff.mp hother)
      obtain ⟨hfoundDoc, hfoundCounts⟩ := List.mem_filter.mp hfound
      rw [List.inj_on_of_nodup_map hnodes hdoc hfoundDoc (hsame.trans hnode.symm)]
      exact of_decide_eq_true hfoundCounts
  rw [UnifiedSearchResult.scores, Document.scores, hsame, hbm25, hcosine]

/-- The merged results are all documents with their scores. -/
theorem map_scores_perm {docs : List Document} (hnodes : (docs.map Document.nodeId).Nodup)
    {text vec merged : List (UnifiedSearchResult F)} (hmerges : MergesLists text vec merged)
    (htext : text.Perm ((foundBy params query.searchedTerms docs).map (summedResult params query.searchedTerms)))
    (hvec : vec.Perm (docs.map fun doc =>
      vectorResult doc.nodeId (computeCosineSimilarity query.queryEmbedding doc.embedding))) :
    (merged.map UnifiedSearchResult.scores).Perm (docs.map (Document.scores params query)) := by
  have hmerged : ((merged.map UnifiedSearchResult.scores).map Prod.fst).Nodup := by
    rw [List.map_map]
    exact hmerges.nodup
  have hdocs : ((docs.map (Document.scores params query)).map Prod.fst).Nodup := by
    rw [List.map_map]
    exact hnodes
  have hnode : ∀ nodeId, nodeId ∈ merged.map UnifiedSearchResult.nodeId ↔
      nodeId ∈ docs.map Document.nodeId := by
    intro nodeId
    rw [hmerges.mem_iff, (htext.map _).mem_iff, (hvec.map _).mem_iff, List.map_map, List.map_map]
    refine or_iff_right_of_imp fun hmem => ?_
    exact (List.filter_sublist.map _).subset hmem
  refine (List.perm_ext_iff_of_nodup hmerged.of_map hdocs.of_map).mpr fun entry =>
    ⟨fun hentry => ?_, fun hentry => ?_⟩
  · obtain ⟨result, hresult, rfl⟩ := List.mem_map.mp hentry
    obtain ⟨doc, hdoc, hsame⟩ := List.mem_map.mp ((hnode _).mp (List.mem_map_of_mem hresult))
    rw [scores_of_mergesLists hnodes hmerges htext hvec hresult hdoc hsame]
    exact List.mem_map_of_mem hdoc
  · obtain ⟨doc, hdoc, rfl⟩ := List.mem_map.mp hentry
    obtain ⟨result, hresult, hsame⟩ := List.mem_map.mp ((hnode _).mpr (List.mem_map_of_mem hdoc))
    rw [← scores_of_mergesLists hnodes hmerges htext hvec hresult hdoc hsame.symm]
    exact List.mem_map_of_mem hresult

/-- The work of a small shard with few documents for a hybrid query returns all of them. -/
theorem SmallShard.exec_shardSearchWorkCb (hsmall : SmallShard updates)
    (hpages : ShardAt pages (ShardView.fresh.updates updates)) (hlinear : LinearOn fun score : F => 0 < score)
    (hadd : ∀ a b : F, 0 < a → 0 < b → 0 < a + b)
    (hnodes : ((liveDocuments updates).map fun entry => entry.1.nodeId).Nodup)
    (htext : query.useText = true) (hvector : query.useVector = true)
    (hphrase : query.isPhrase = false ∨ query.termIds.length ≤ 1)
    (hfew : (liveDocuments updates).length ≤ maxResultsPerShard) : ∃ results : List (UnifiedSearchResult F),
      arrayHandler.exec (shardSearchWorkCb params query) pages = some (results, pages) ∧
      (results.map UnifiedSearchResult.scores).Perm
        (((liveDocuments updates).map Prod.fst).map (Document.scores params query)) ∧
      ∀ result ∈ results, ¬0 < result.bm25fScore → result.bm25fRank = 0 := by
  set docs := (liveDocuments updates).map Prod.fst with hdocs
  have hdocsNodes : (docs.map Document.nodeId).Nodup := by
    rw [hdocs, List.map_map]
    exact hnodes
  have hdocsFew : docs.length ≤ maxResultsPerShard := by rwa [hdocs, List.length_map]
  have hroom : (2 : ℕ) ^ 32 > maxResultsPerShard := by decide
  have hfoundFew : (foundBy params query.searchedTerms docs).length ≤ maxResultsPerShard :=
    (List.length_filter_le _ _).trans hdocsFew
  obtain ⟨text, htextExec, htextPerm⟩ := hsmall.exec_searchText hpages hlinear hnodes hphrase hfoundFew
  obtain ⟨vec, hvecExec, hvecPerm⟩ := @SmallShard.exec_searchVector F _ _ _ hsmall hpages query.queryEmbedding hfew
  have hmerges : MergesLists text vec (mergedRrf text vec) := by
    refine mergesLists_mergedRrf ?_ ?_ ?_ ?_ ?_ ?_
    · rw [(htextPerm.map _).nodup_iff, List.map_map]
      exact hdocsNodes.sublist (List.filter_sublist.map _)
    · rw [(hvecPerm.map _).nodup_iff, List.map_map]
      exact hdocsNodes
    · intro result hresult
      obtain ⟨doc, -, rfl⟩ := List.mem_map.mp (htextPerm.mem_iff.mp hresult)
      exact ⟨rfl, rfl⟩
    · intro result hresult
      obtain ⟨doc, -, rfl⟩ := List.mem_map.mp (hvecPerm.mem_iff.mp hresult)
      exact ⟨rfl, rfl⟩
    · rw [htextPerm.length_eq, List.length_map]
      exact hfoundFew.trans_lt hroom
    · rw [hvecPerm.length_eq, List.length_map]
      exact hdocsFew.trans_lt hroom
  have hscores := map_scores_perm hdocsNodes hmerges htextPerm hvecPerm
  have hsorted : mergeRrf text vec maxResultsPerShard =
      exchangeSort UnifiedSearchResult.rrfScore (mergedRrf text vec) := by
    refine List.take_of_length_le ?_
    have hlength := hscores.length_eq
    rw [List.length_map, List.length_map] at hlength
    have hexchanged : (exchangeSort UnifiedSearchResult.rrfScore (mergedRrf text vec)).length = docs.length :=
      (perm_exchangeSort _).length_eq.trans hlength
    exact hexchanged.trans_le hdocsFew
  refine ⟨mergeRrf text vec maxResultsPerShard, ?_, ?_, ?_⟩
  · rw [shardSearchWorkCb, htext, hvector]
    simp only [if_true]
    rw [Handler.exec_bind_of_eq _ htextExec, Handler.exec_bind_of_eq _ hvecExec]
    rfl
  · rw [hsorted]
    exact ((perm_exchangeSort _).map _).trans hscores
  · intro result hresult hnot
    rw [hsorted, (perm_exchangeSort _).mem_iff] at hresult
    refine (hmerges.text result hresult).rank_zero_iff.mpr fun hmem => hnot ?_
    obtain ⟨other, hother, hnode⟩ := List.mem_map.mp hmem
    rw [(hmerges.text result hresult).score_listed other hother hnode]
    obtain ⟨doc, hdoc, rfl⟩ := List.mem_map.mp (htextPerm.mem_iff.mp hother)
    exact summedScore_positive hadd hdoc

end Shards

/-! ## All shards -/

/-- The scores of a document speak for it. -/
def scoresCount (scores : Vector UInt8 16 × F × F) : Bool := decide (0 < scores.2.1) || !(scores.2.2 == 0)

/-- The answer to a hybrid query: all documents that their scores speak for, with these scores, in the order of the
fused scores. The rank of a text score is its place among all of them. -/
structure AnswersHybrid (scored : List (Vector UInt8 16 × F × F))
    (results : List (UnifiedSearchResult F)) : Prop where
  complete : (results.map UnifiedSearchResult.scores).Perm (scored.filter scoresCount)
  fused : ∀ result ∈ results, result.rrfScore = fusedScore result
  sorted : results.Pairwise fun a b => ¬a.rrfScore < b.rrfScore
  ranked : ∃ text : List (UnifiedSearchResult F), (text.map UnifiedSearchResult.scores).Perm
      (scored.filter fun scores => 0 < scores.2.1) ∧ (text.Pairwise fun a b => ¬a.bm25fScore < b.bm25fScore) ∧
    ∀ (place : ℕ) (result : UnifiedSearchResult F), result ∈ results → (result.bm25fRank.toNat = place + 1 ↔
      (text.map UnifiedSearchResult.nodeId)[place]? = some result.nodeId)

omit [Double F] in
/-- Merging results of other nodes. -/
theorem foldl_mergeVector_of_nodup {results merged : List (UnifiedSearchResult F)}
    (hnodup : ((merged ++ results).map UnifiedSearchResult.nodeId).Nodup) :
    results.foldl mergeVector merged = merged ++ results := by
  induction results generalizing merged with
  | nil => exact (List.append_nil merged).symm
  | cons result results ih =>
    have hnew : result.nodeId ∉ merged.map UnifiedSearchResult.nodeId := by
      rw [List.map_append, List.map_cons, List.nodup_append] at hnodup
      exact fun hmem => hnodup.2.2 _ hmem _ List.mem_cons_self rfl
    rw [List.append_cons] at hnodup ⊢
    rw [List.foldl_cons, mergeVector_of_not_mem hnew, ih hnodup]

section Fusing

variable {query : UnifiedQuery} {gathered : List (UnifiedSearchResult F)}

/-- Ranking keeps the scores. -/
theorem map_scores_rankText (text : List (UnifiedSearchResult F)) :
    (rankText text).map UnifiedSearchResult.scores =
      (exchangeSort UnifiedSearchResult.bm25fScore text).map UnifiedSearchResult.scores := by
  rw [rankText]
  apply map_mapIdx_eq
  intro i result
  rfl

/-- Ranking keeps the scores. -/
theorem map_scores_rankVector (vec : List (UnifiedSearchResult F)) :
    (rankVector vec).map UnifiedSearchResult.scores =
      (exchangeSort UnifiedSearchResult.cosineScore vec).map UnifiedSearchResult.scores := by
  rw [rankVector]
  apply map_mapIdx_eq
  intro i result
  rfl

omit [Double F] in
/-- The nodes are the first parts of the scores. -/
theorem map_fst_map_scores (results : List (UnifiedSearchResult F)) :
    (results.map UnifiedSearchResult.scores).map Prod.fst = results.map UnifiedSearchResult.nodeId :=
  List.map_map

/-- What is gathered is taken apart. -/
theorem filter_gathered_perm (htext : query.useText = true) (hvector : query.useVector = true) :
    (gathered.filter (isTextResult query) ++ gathered.filter (isVectorResult query)).Perm
      (gathered.filter fun result => scoresCount result.scores) := by
  have hcount : ∀ result : UnifiedSearchResult F, scoresCount result.scores =
      (isTextResult query result || isVectorResult query result) := by
    intro result
    rw [scoresCount, isVectorResult, isTextResult, htext, hvector, UnifiedSearchResult.scores]
    cases decide (0 < result.bm25fScore) <;> simp
  have hfirst : gathered.filter (isTextResult query) =
      (gathered.filter fun result => scoresCount result.scores).filter (isTextResult query) := by
    rw [List.filter_filter]
    refine List.filter_congr fun result _ => ?_
    rw [hcount]
    cases isTextResult query result <;> rfl
  have hrest : gathered.filter (isVectorResult query) =
      (gathered.filter fun result => scoresCount result.scores).filter fun result => !isTextResult query result := by
    rw [List.filter_filter]
    refine List.filter_congr fun result _ => ?_
    rw [hcount, isVectorResult]
    cases isTextResult query result <;> simp
  rw [hfirst, hrest]
  exact List.filter_append_perm _ _

/-- The results of the two searches are merged without a change. -/
theorem fuseGathered_eq (htext : query.useText = true) (hvector : query.useVector = true)
    (hnodup : (gathered.map UnifiedSearchResult.nodeId).Nodup)
    (qsort : List (UnifiedSearchResult F) → List (UnifiedSearchResult F)) :
    ((rankText (gathered.filter (isTextResult query)) ++ rankVector (gathered.filter (isVectorResult query))).map
        UnifiedSearchResult.scores).Perm ((gathered.map UnifiedSearchResult.scores).filter scoresCount) ∧
      fuseGathered qsort query gathered = computeRrfFusion qsort (rankText (gathered.filter (isTextResult query)) ++
        rankVector (gathered.filter (isVectorResult query))) := by
  have hperm : ((rankText (gathered.filter (isTextResult query)) ++
      rankVector (gathered.filter (isVectorResult query))).map UnifiedSearchResult.scores).Perm
        ((gathered.map UnifiedSearchResult.scores).filter scoresCount) := by
    rw [List.map_append, map_scores_rankText, map_scores_rankVector, ← List.map_append, List.filter_map]
    refine List.Perm.map _ (List.Perm.trans ?_ (filter_gathered_perm htext hvector))
    exact (perm_exchangeSort _).append (perm_exchangeSort _)
  refine ⟨hperm, ?_⟩
  have hmerged : ((rankText (gathered.filter (isTextResult query)) ++
      rankVector (gathered.filter (isVectorResult query))).map UnifiedSearchResult.nodeId).Nodup := by
    rw [← map_fst_map_scores, (hperm.map _).nodup_iff]
    refine List.Nodup.sublist (List.filter_sublist.map _) ?_
    rwa [map_fst_map_scores]
  simp only [fuseGathered, fuseResults, htext, hvector, if_true, and_self]
  rw [foldl_mergeVector_of_nodup hmerged]

/-- The rank of a text score is its place among all of them. -/
theorem bm25fRank_iff (htext : query.useText = true)
    (hnodup : (gathered.map UnifiedSearchResult.nodeId).Nodup) (hfew : gathered.length < 2 ^ 32)
    (hplain : ∀ result ∈ gathered, ¬0 < result.bm25fScore → result.bm25fRank = 0)
    {result : UnifiedSearchResult F}
    (hresult : result ∈ rankText (gathered.filter (isTextResult query)) ++
      rankVector (gathered.filter (isVectorResult query))) (place : ℕ) :
    result.bm25fRank.toNat = place + 1 ↔ ((exchangeSort UnifiedSearchResult.bm25fScore
      (gathered.filter (isTextResult query))).map UnifiedSearchResult.nodeId)[place]? = some result.nodeId := by
  have hnodes : (rankText (gathered.filter (isTextResult query))).map UnifiedSearchResult.nodeId =
      (exchangeSort UnifiedSearchResult.bm25fScore (gathered.filter (isTextResult query))).map
        UnifiedSearchResult.nodeId := by
    rw [← map_fst_map_scores, map_scores_rankText, map_fst_map_scores]
  have htextNodes : ((rankText (gathered.filter (isTextResult query))).map UnifiedSearchResult.nodeId).Nodup := by
    rw [hnodes, ((perm_exchangeSort _).map _).nodup_iff]
    exact hnodup.sublist (List.filter_sublist.map _)
  rw [← hnodes]
  obtain hresult | hresult := List.mem_append.mp hresult
  · have hnumbered : ∀ (i : ℕ) (other : UnifiedSearchResult F),
        (rankText (gathered.filter (isTextResult query)))[i]? = some other → other.bm25fRank.toNat = i + 1 := by
      intro i other hother
      obtain ⟨hi, hrank, -⟩ := getElem?_rankText hother
      have hlength : (gathered.filter (isTextResult query)).length ≤ gathered.length := List.length_filter_le _ _
      rw [hrank, UInt32.toNat_ofNat', Nat.mod_eq_of_lt (by omega)]
    have hranked : RankedIn UnifiedSearchResult.bm25fScore (rankText (gathered.filter (isTextResult query)))
        result.nodeId result.bm25fRank result.bm25fScore := .of_numbered htextNodes hnumbered hresult
    exact hranked.rank_iff place
  · obtain ⟨i, hi⟩ := List.mem_iff_getElem?.mp hresult
    obtain ⟨-, -, other, hother, rfl⟩ := getElem?_rankVector hi
    obtain ⟨hmem, hcounts⟩ := List.mem_filter.mp hother
    have hnot : isTextResult query other = false := by
      rw [isVectorResult] at hcounts
      simpa using (Bool.and_eq_true_iff.mp hcounts).1
    have hzero : other.bm25fRank = 0 := by
      refine hplain other hmem fun hpositive => ?_
      rw [isTextResult, htext, decide_eq_true hpositive] at hnot
      exact Bool.false_ne_true hnot.symm
    refine iff_of_false (fun hrank => ?_) fun hfound => ?_
    · change other.bm25fRank.toNat = place + 1 at hrank
      rw [hzero] at hrank
      exact absurd hrank (Nat.zero_ne_add_one place)
    · have hsame : other.nodeId ∈ (gathered.filter (isTextResult query)).map UnifiedSearchResult.nodeId := by
        rw [hnodes] at hfound
        exact ((perm_exchangeSort _).map _).mem_iff.mp (List.mem_of_getElem? hfound)
      obtain ⟨textual, htextual, hnode⟩ := List.mem_map.mp hsame
      obtain ⟨htextualMem, hpositive⟩ := List.mem_filter.mp htextual
      rw [List.inj_on_of_nodup_map hnodup htextualMem hmem hnode, hnot] at hpositive
      exact Bool.false_ne_true hpositive

/-- Fusing what was gathered for a hybrid query. -/
theorem answersHybrid_fuseGathered {numbers : F → Prop} (hlinear : LinearOn fun score : F => 0 < score)
    (hnumbers : ∀ result : UnifiedSearchResult F, numbers (fusedScore result))
    {qsort : List (UnifiedSearchResult F) → List (UnifiedSearchResult F)} (hqsort : SortsByFusedScore numbers qsort)
    (htext : query.useText = true) (hvector : query.useVector = true)
    (hnodup : (gathered.map UnifiedSearchResult.nodeId).Nodup) (hfew : gathered.length < 2 ^ 32)
    (hplain : ∀ result ∈ gathered, ¬0 < result.bm25fScore → result.bm25fRank = 0) :
    AnswersHybrid (gathered.map UnifiedSearchResult.scores) (fuseGathered qsort query gathered) := by
  obtain ⟨hperm, hfuse⟩ := fuseGathered_eq htext hvector hnodup qsort
  set text := gathered.filter (isTextResult query) with htextDef
  set vec := gathered.filter (isVectorResult query) with hvecDef
  have hscored : ∀ result ∈ (rankText text ++ rankVector vec).map fun result =>
      { result with rrfScore := fusedScore result }, numbers result.rrfScore := by
    intro result hresult
    obtain ⟨other, -, rfl⟩ := List.mem_map.mp hresult
    exact hnumbers other
  obtain ⟨hqsortPerm, hsorted⟩ := hqsort _ hscored
  rw [hfuse]
  refine ⟨?_, fun result hresult => ?_, hsorted, exchangeSort UnifiedSearchResult.bm25fScore text, ?_, ?_, ?_⟩
  · refine (hqsortPerm.map _).trans (List.Perm.trans (List.Perm.of_eq ?_) hperm)
    rw [List.map_map]
    rfl
  · obtain ⟨other, -, rfl⟩ := List.mem_map.mp (hqsortPerm.mem_iff.mp hresult)
    rfl
  · rw [List.filter_map]
    refine List.Perm.map _ ((perm_exchangeSort _).trans (List.Perm.of_eq ?_))
    rw [htextDef]
    refine List.filter_congr fun result _ => ?_
    rw [isTextResult, htext, Bool.true_and]
    rfl
  · refine pairwise_exchangeSort hlinear fun result hresult => ?_
    have hpositive := (List.mem_filter.mp hresult).2
    rw [isTextResult, htext, Bool.true_and] at hpositive
    exact of_decide_eq_true hpositive
  · intro place result hresult
    obtain ⟨other, hother, rfl⟩ := List.mem_map.mp (hqsortPerm.mem_iff.mp hresult)
    exact bm25fRank_iff htext hnodup hfew hplain hother place

end Fusing

/-- A hybrid query returns every live document that its text score or its cosine speaks for exactly once, with these
scores and in the order of the fused scores, as long as no shard has more than 64 live documents. -/
theorem engineSearchAsync_hybrid {numbers : F → Prop} (hlinear : LinearOn fun score : F => 0 < score)
    (hadd : ∀ a b : F, 0 < a → 0 < b → 0 < a + b)
    (hnumbers : ∀ result : UnifiedSearchResult F, numbers (fusedScore result))
    {qsort : List (UnifiedSearchResult F) → List (UnifiedSearchResult F)} (hqsort : SortsByFusedScore numbers qsort)
    {engine : UnifiedEngine F} {distribution : List (List ShardUpdate)}
    (hholds : List.Forall₂ EngineShard.HoldsAfter engine.shards distribution)
    (hmany : engine.shards.length ≤ maxShards)
    (hsmall : ∀ updates ∈ distribution, SmallShard updates)
    (hfew : ∀ updates ∈ distribution, (liveDocuments updates).length ≤ maxResultsPerShard)
    (hnodes : ((distribution.flatMap fun updates => (liveDocuments updates).map Prod.fst).map Document.nodeId).Nodup)
    {query : UnifiedQuery} (htext : query.useText = true) (hvector : query.useVector = true)
    (hphrase : query.isPhrase = false ∨ query.termIds.length ≤ 1) :
    ∃ results engine', List.Forall₂ EngineShard.HoldsAfter engine'.shards distribution ∧
      AnswersHybrid ((distribution.flatMap fun updates => (liveDocuments updates).map Prod.fst).map
        (Document.scores engine.params query)) results ∧
      ∀ threads, 0 < threads → ∀ maxResults,
        ReturnsAsync qsort threads engine query maxResults (results.take maxResults, engine') := by
  have hshardNodes : ∀ updates ∈ distribution, ((liveDocuments updates).map fun entry => entry.1.nodeId).Nodup := by
    intro updates hupdates
    have hpart : ((liveDocuments updates).map Prod.fst).Sublist
        (distribution.flatMap fun updates => (liveDocuments updates).map Prod.fst) := by
      rw [List.flatMap_def]
      exact List.sublist_flatten_of_mem (List.mem_map.mpr ⟨updates, hupdates, rfl⟩)
    have hnodup := hnodes.sublist (hpart.map Document.nodeId)
    rwa [List.map_map] at hnodup
  obtain ⟨found, shards', hscatter, hgood, hafter⟩ :=
    exists_scatter_holds hholds fun updates hupdates pages hpages =>
      (hsmall updates hupdates).exec_shardSearchWorkCb hpages hlinear hadd (hshardNodes updates hupdates) htext
        hvector hphrase (hfew updates hupdates)
  -- the shards together found the documents of all shards
  have hall : (found.flatten.map UnifiedSearchResult.scores).Perm
      ((distribution.flatMap fun updates => (liveDocuments updates).map Prod.fst).map
        (Document.scores engine.params query)) := by
    rw [List.map_flatten, ← List.flatMap_def, List.map_flatMap]
    exact perm_flatMap_of_forall₂ (hgood.imp fun _ _ hshard => hshard.1)
  have hplain : ∀ result ∈ found.flatten, ¬0 < result.bm25fScore → result.bm25fRank = 0 := by
    intro result hresult
    obtain ⟨results, hresults, hin⟩ := List.mem_flatten.mp hresult
    obtain ⟨updates, -, hshard⟩ := exists_mem_of_forall₂ hgood hresults
    exact hshard.2 result hin
  have hnodup : (found.flatten.map UnifiedSearchResult.nodeId).Nodup := by
    rw [← map_fst_map_scores, (hall.map _).nodup_iff, List.map_map]
    exact hnodes
  have hlength : found.flatten.length < 2 ^ 32 := by
    have hsum := List.sum_le_card_nsmul (distribution.map fun updates => ((liveDocuments updates).map Prod.fst).length)
      maxResultsPerShard (by
        intro count hcount
        obtain ⟨updates, hupdates, rfl⟩ := List.mem_map.mp hcount
        rw [List.length_map]
        exact hfew updates hupdates)
    have hroom : maxShards * maxResultsPerShard < 2 ^ 32 := by decide
    have hshards := Nat.mul_le_mul_right maxResultsPerShard hmany
    rw [← List.length_map UnifiedSearchResult.scores, hall.length_eq, List.length_map, List.length_flatMap]
    rw [List.length_map, ← hholds.length_eq, smul_eq_mul] at hsum
    omega
  have hanswers := answersHybrid_fuseGathered hlinear hnumbers hqsort htext hvector hnodup hlength hplain
  refine ⟨fuseGathered qsort query found.flatten, { engine with shards := shards' }, hafter,
    ⟨hanswers.complete.trans (hall.filter _), hanswers.fused, hanswers.sorted, ?_⟩,
    fun threads hthreads maxResults => returnsAsync_of_scatter qsort hthreads hscatter maxResults⟩
  obtain ⟨text, hperm, hdescending, hranks⟩ := hanswers.ranked
  exact ⟨text, hperm.trans (hall.filter _), hdescending, hranks⟩

/-- Two documents in two shards. -/
theorem engineSearchAsync_hybrid_two_documents : ∃ engine : UnifiedEngine ℚ, ∃ results engine',
    engine.shards.length = 2 ∧ List.Forall₂ EngineShard.HoldsAfter engine'.shards (routed 2 twoDocuments) ∧
      AnswersHybrid (((routed 2 twoDocuments).flatMap fun updates => (liveDocuments updates).map Prod.fst).map
        (Document.scores engine.params hybridQuery)) results ∧
      ∀ threads, 0 < threads → ∀ maxResults,
        ReturnsAsync (exchangeSort UnifiedSearchResult.rrfScore) threads engine hybridQuery maxResults
          (results.take maxResults, engine') := by
  have hsmall : ∀ updates ∈ routed 2 twoDocuments, SmallShard updates := smallShard_routed (by decide) (by decide)
  obtain ⟨-, engine, -, -, -, -, hparams, hholds⟩ := @exists_engine_inserted ℚ _ twoNewShards
    (List.cons_ne_nil _ _) isNew_twoNewShards 0 (by decide) _ hsmall
  have hlength : engine.shards.length = 2 := hholds.length_eq.trans (length_routed _ _)
  have hfew : ∀ updates ∈ routed 2 twoDocuments, (liveDocuments updates).length ≤ maxResultsPerShard := by
    intro updates hupdates
    obtain ⟨i, -, rfl⟩ := List.mem_map.mp hupdates
    rw [← List.length_map Prod.fst, map_fst_liveDocuments_map_insert]
    exact (List.length_filter_le _ _).trans (by decide)
  have hnodes : (((routed 2 twoDocuments).flatMap fun updates => (liveDocuments updates).map Prod.fst).map
      Document.nodeId).Nodup := by
    rw [((flatMap_liveDocuments_routed_perm Nat.two_pos twoDocuments).map _).nodup_iff]
    decide
  obtain ⟨results, engine', hafter, hanswers, hreturns⟩ := engineSearchAsync_hybrid (linearOn_rat _)
    (fun _ _ => add_pos) (fun _ => trivial) sortsByFusedScore_exchangeSort hholds (hlength ▸ by decide) hsmall hfew
    hnodes (rfl : hybridQuery.useText = true) rfl (.inl rfl)
  exact ⟨engine, results, engine', hlength, hafter, hanswers, hreturns⟩

end FtsUring
