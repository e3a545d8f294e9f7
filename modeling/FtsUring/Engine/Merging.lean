import FtsUring.Engine.ScatterGather
import FtsUring.Foundation.ExchangeLoop

/-!
# Merging two ranked lists

A hybrid query sorts the results of the text searches and those of the vector searches, writes the rank of
every result into it, and merges the two lists by node id. When the results of each list are of different
nodes, the merged list has every node once, with its rank and score in each of the two lists.
-/

namespace FtsUring

open Foundation

variable {F : Type} [Double F]

/-! ## The loops of the source -/

/-- A result of the text search gets its rank while the results behind it are still to be sorted. -/
theorem rankText_eq_exchangeLoop (results : List (UnifiedSearchResult F)) :
    rankText results = exchangeLoop UnifiedSearchResult.bm25fScore
      (fun i result => { result with bm25fRank := UInt32.ofNat (i + 1) }) results :=
  (exchangeLoop_eq _ results).symm

/-- A result of the vector search gets its rank while the results behind it are still to be sorted. -/
theorem rankVector_eq_exchangeLoop (results : List (UnifiedSearchResult F)) :
    rankVector results = exchangeLoop UnifiedSearchResult.cosineScore
      (fun i result => { result with cosineRank := UInt32.ofNat (i + 1) }) results :=
  (exchangeLoop_eq _ results).symm

/-- The merged results. -/
def mergedResults (query : UnifiedQuery) (bm25fAll vectorAll : List (UnifiedSearchResult F)) :
    List (UnifiedSearchResult F) :=
  (if query.useVector then rankVector vectorAll else vectorAll).foldl mergeVector
    (if query.useText then rankText bm25fAll else bm25fAll)

/-- The merged results with the fused scores of a hybrid query. -/
def scoredResults (query : UnifiedQuery) (merged : List (UnifiedSearchResult F)) :
    List (UnifiedSearchResult F) :=
  if query.useText ∧ query.useVector then
    merged.map fun result => { result with rrfScore := fusedScore result }
  else merged

/-- The score by which the merged results are sorted. -/
def finalScore (query : UnifiedQuery) : UnifiedSearchResult F → F :=
  if query.useText ∧ query.useVector then UnifiedSearchResult.rrfScore
  else if query.useText then UnifiedSearchResult.bm25fScore
  else UnifiedSearchResult.cosineScore

/-- `qsort` sorts in descending order of the fused scores, as long as these can be compared. -/
def SortsByFusedScore (numbers : F → Prop)
    (qsort : List (UnifiedSearchResult F) → List (UnifiedSearchResult F)) : Prop :=
  ∀ results, (∀ result ∈ results, numbers result.rrfScore) →
    (qsort results).Perm results ∧ (qsort results).Pairwise fun a b => ¬a.rrfScore < b.rrfScore

/-- The merged results are sorted by the final score. -/
theorem fuseResults_sorted {numbers : F → Prop} (hlinear : LinearOn numbers)
    {qsort : List (UnifiedSearchResult F) → List (UnifiedSearchResult F)}
    (hqsort : SortsByFusedScore numbers qsort) {query : UnifiedQuery}
    {bm25fAll vectorAll : List (UnifiedSearchResult F)}
    (hnumbers : ∀ result ∈ scoredResults query (mergedResults query bm25fAll vectorAll),
      numbers (finalScore query result)) :
    (fuseResults qsort query bm25fAll vectorAll).Perm
        (scoredResults query (mergedResults query bm25fAll vectorAll)) ∧
      (fuseResults qsort query bm25fAll vectorAll).Pairwise
        fun a b => ¬finalScore query a < finalScore query b := by
  set merged := mergedResults query bm25fAll vectorAll with hmerged
  have hfuse : fuseResults qsort query bm25fAll vectorAll =
      if query.useText ∧ query.useVector then computeRrfFusion qsort merged
      else if query.useText then exchangeSort UnifiedSearchResult.bm25fScore merged
      else exchangeSort UnifiedSearchResult.cosineScore merged := rfl
  rw [scoredResults, finalScore] at hnumbers ⊢
  rw [hfuse]
  by_cases hhybrid : query.useText ∧ query.useVector
  · simp only [hhybrid, and_self, if_true] at hnumbers ⊢
    exact hqsort _ hnumbers
  · simp only [hhybrid, if_false] at hnumbers ⊢
    by_cases htext : query.useText
    · simp only [htext, if_true] at hnumbers ⊢
      exact ⟨perm_exchangeSort merged, pairwise_exchangeSort hlinear hnumbers⟩
    · simp only [htext] at hnumbers ⊢
      exact ⟨perm_exchangeSort merged, pairwise_exchangeSort hlinear hnumbers⟩

/-! ## Ranks -/

section Ranks

variable {key : UnifiedSearchResult F → F} {sorted : List (UnifiedSearchResult F)}
  {nodeId : Vector UInt8 16} {rank : UInt32} {score : F}

/-- The rank and the score of a node in a sorted list: the rank is its place, counted from 1, and both are
zero when it is not in the list. -/
structure RankedIn (key : UnifiedSearchResult F → F) (sorted : List (UnifiedSearchResult F))
    (nodeId : Vector UInt8 16) (rank : UInt32) (score : F) : Prop where
  rank_iff : ∀ r, rank.toNat = r + 1 ↔ (sorted.map UnifiedSearchResult.nodeId)[r]? = some nodeId
  rank_zero_iff : rank = 0 ↔ nodeId ∉ sorted.map UnifiedSearchResult.nodeId
  score_listed : ∀ result ∈ sorted, result.nodeId = nodeId → score = key result
  score_absent : nodeId ∉ sorted.map UnifiedSearchResult.nodeId → score = 0

/-- A node that is not in the list. -/
theorem RankedIn.absent (h : nodeId ∉ sorted.map UnifiedSearchResult.nodeId) :
    RankedIn key sorted nodeId 0 0 where
  rank_iff r := by
    constructor
    · intro hzero
      exact absurd hzero (Nat.zero_ne_add_one r)
    · intro hfound
      exact absurd (List.mem_of_getElem? hfound) h
  rank_zero_iff := iff_of_true rfl h
  score_listed result hresult hnode := absurd (hnode ▸ List.mem_map_of_mem hresult) h
  score_absent _ := rfl

/-- The results of a list whose results are numbered. -/
theorem RankedIn.of_numbered (hdistinct : (sorted.map UnifiedSearchResult.nodeId).Nodup)
    {rankOf : UnifiedSearchResult F → UInt32}
    (hnumbered : ∀ i result, sorted[i]? = some result → (rankOf result).toNat = i + 1)
    {result : UnifiedSearchResult F} (hresult : result ∈ sorted) :
    RankedIn key sorted result.nodeId (rankOf result) (key result) := by
  obtain ⟨i, hi⟩ := List.mem_iff_getElem?.mp hresult
  have hnode : (sorted.map UnifiedSearchResult.nodeId)[i]? = some result.nodeId := by
    rw [List.getElem?_map, hi]
    rfl
  have hbound := (List.getElem?_eq_some_iff.mp hnode).1
  have hrank := hnumbered i result hi
  have hmem : result.nodeId ∈ sorted.map UnifiedSearchResult.nodeId := List.mem_map_of_mem hresult
  refine ⟨fun r => ?_, iff_of_false ?_ (not_not.mpr hmem), fun other hother hsame => ?_, fun h => absurd hmem h⟩
  · rw [hrank]
    constructor
    · intro hsame
      rw [← Nat.succ_injective hsame, hnode]
    · intro hfound
      rw [(List.getElem?_inj hbound hdistinct).mp (hnode.trans hfound.symm)]
  · intro hzero
    rw [hzero] at hrank
    exact absurd hrank (Nat.zero_ne_add_one i)
  · rw [List.inj_on_of_nodup_map hdistinct hother hresult hsame]

/-- Results of other nodes do not matter. -/
theorem RankedIn.concat_of_ne (h : RankedIn key sorted nodeId rank score) {result : UnifiedSearchResult F}
    (hne : result.nodeId ≠ nodeId) : RankedIn key (sorted ++ [result]) nodeId rank score := by
  have hmem : nodeId ∈ (sorted ++ [result]).map UnifiedSearchResult.nodeId ↔
      nodeId ∈ sorted.map UnifiedSearchResult.nodeId := by
    rw [List.map_append, List.mem_append]
    exact or_iff_left fun hlast => hne (List.mem_singleton.mp hlast).symm
  refine ⟨fun r => (h.rank_iff r).trans ?_, h.rank_zero_iff.trans (not_congr hmem.symm), ?_,
    fun habsent => h.score_absent (mt hmem.mpr habsent)⟩
  · rw [List.map_append, List.getElem?_append]
    split_ifs with hbound
    · exact Iff.rfl
    · rw [List.getElem?_eq_none (not_lt.mp hbound)]
      refine iff_of_false nofun fun hfound => hne ?_
      exact (List.mem_singleton.mp (List.mem_of_getElem? hfound)).symm
  · intro other hother hsame
    obtain hother | hother := List.mem_append.mp hother
    · exact h.score_listed other hother hsame
    · rw [List.mem_singleton.mp hother] at hsame
      exact absurd hsame hne

/-- A list with the same nodes and scores. -/
theorem RankedIn.congr {other : List (UnifiedSearchResult F)} (h : RankedIn key sorted nodeId rank score)
    (hsame : sorted.map (fun result => (result.nodeId, key result)) =
      other.map fun result => (result.nodeId, key result)) : RankedIn key other nodeId rank score := by
  have hnodes : sorted.map UnifiedSearchResult.nodeId = other.map UnifiedSearchResult.nodeId := by
    have hfirst := congrArg (List.map Prod.fst) hsame
    rwa [List.map_map, List.map_map] at hfirst
  refine ⟨hnodes ▸ h.rank_iff, hnodes ▸ h.rank_zero_iff, fun result hresult hnode => ?_,
    hnodes ▸ h.score_absent⟩
  have hentry : (result.nodeId, key result) ∈ sorted.map fun result => (result.nodeId, key result) :=
    hsame ▸ List.mem_map_of_mem hresult
  obtain ⟨found, hfound, hsameEntry⟩ := List.mem_map.mp hentry
  rw [Prod.mk.injEq] at hsameEntry
  rw [← hsameEntry.2]
  exact h.score_listed found hfound (hsameEntry.1.trans hnode)

end Ranks

/-! ## The merge -/

/-- The merged list has every node of the two lists once, with its ranks and its scores. -/
structure MergesLists (text vector merged : List (UnifiedSearchResult F)) : Prop where
  nodup : (merged.map UnifiedSearchResult.nodeId).Nodup
  mem_iff : ∀ nodeId, nodeId ∈ merged.map UnifiedSearchResult.nodeId ↔
    nodeId ∈ text.map UnifiedSearchResult.nodeId ∨ nodeId ∈ vector.map UnifiedSearchResult.nodeId
  text : ∀ result ∈ merged,
    RankedIn UnifiedSearchResult.bm25fScore text result.nodeId result.bm25fRank result.bm25fScore
  vector : ∀ result ∈ merged,
    RankedIn UnifiedSearchResult.cosineScore vector result.nodeId result.cosineRank result.cosineScore

omit [Double F] in
/-- Merging a result of a new node. -/
theorem mergeVector_of_not_mem {merged : List (UnifiedSearchResult F)} {result : UnifiedSearchResult F}
    (h : result.nodeId ∉ merged.map UnifiedSearchResult.nodeId) :
    mergeVector merged result = merged ++ [result] := by
  have hnone : merged.findIdx? (fun other => other.nodeId = result.nodeId) = none := by
    rw [List.findIdx?_eq_none_iff]
    intro other hother
    exact decide_eq_false fun hsame => h (hsame ▸ List.mem_map_of_mem hother)
  rw [mergeVector, hnone]

/-- A merged result after the one of the vector search was merged into those of its node. -/
def UnifiedSearchResult.withVector (result other : UnifiedSearchResult F) : UnifiedSearchResult F :=
  if other.nodeId = result.nodeId then
    { other with cosineScore := result.cosineScore, cosineRank := result.cosineRank }
  else other

omit [Double F] in
/-- Merging changes the cosine and its rank only. -/
theorem withVector_same (result other : UnifiedSearchResult F) :
    (result.withVector other).nodeId = other.nodeId ∧
      (result.withVector other).bm25fRank = other.bm25fRank ∧
        (result.withVector other).bm25fScore = other.bm25fScore := by
  rw [UnifiedSearchResult.withVector]
  split_ifs <;> exact ⟨rfl, rfl, rfl⟩

omit [Double F] in
/-- Merging a result of a node that is there. -/
theorem mergeVector_of_mem {merged : List (UnifiedSearchResult F)} {result : UnifiedSearchResult F}
    (hdistinct : (merged.map UnifiedSearchResult.nodeId).Nodup)
    (h : result.nodeId ∈ merged.map UnifiedSearchResult.nodeId) :
    mergeVector merged result = merged.map result.withVector := by
  rw [mergeVector]
  cases hfind : merged.findIdx? fun other => other.nodeId = result.nodeId with
  | none =>
    obtain ⟨other, hother, hsame⟩ := List.mem_map.mp h
    have hnew := List.findIdx?_eq_none_iff.mp hfind other hother
    exact absurd hsame (of_decide_eq_false hnew)
  | some j =>
    obtain ⟨hj, hfound, -⟩ := List.findIdx?_eq_some_iff_getElem.mp hfind
    have hsame : merged[j].nodeId = result.nodeId := of_decide_eq_true hfound
    apply List.ext_getElem?
    intro i
    dsimp only
    rw [List.getElem?_modify, List.getElem?_map]
    by_cases hij : j = i
    · subst hij
      simp [List.getElem?_eq_getElem hj, UnifiedSearchResult.withVector, hsame]
    · simp only [hij, if_false]
      cases hother : merged[i]? with
      | none => rfl
      | some other =>
        have hne : other.nodeId ≠ result.nodeId := by
          intro heq
          have hj' : (merged.map UnifiedSearchResult.nodeId)[j]? = some result.nodeId := by
            rw [List.getElem?_map, List.getElem?_eq_getElem hj, Option.map_some, hsame]
          have hi' : (merged.map UnifiedSearchResult.nodeId)[i]? = some result.nodeId := by
            rw [List.getElem?_map, hother, Option.map_some, heq]
          exact hij ((List.getElem?_inj (List.getElem?_eq_some_iff.mp hj').1 hdistinct).mp (hj'.trans hi'.symm))
        simp [UnifiedSearchResult.withVector, hne]

/-- The results of the text search before the results of the vector search are merged into them. -/
theorem mergesLists_nil {text : List (UnifiedSearchResult F)}
    (hdistinct : (text.map UnifiedSearchResult.nodeId).Nodup)
    (hnumbered : ∀ i result, text[i]? = some result → result.bm25fRank.toNat = i + 1)
    (hnew : ∀ result ∈ text, result.cosineRank = 0 ∧ result.cosineScore = 0) :
    MergesLists text [] text where
  nodup := hdistinct
  mem_iff _ := (or_iff_left List.not_mem_nil).symm
  text _ hresult := .of_numbered hdistinct hnumbered hresult
  vector result hresult := by
    obtain ⟨hrank, hscore⟩ := hnew result hresult
    rw [hrank, hscore]
    exact .absent List.not_mem_nil

/-- Merging the next result of the vector search. -/
theorem MergesLists.concat {text vector merged : List (UnifiedSearchResult F)}
    (h : MergesLists text vector merged) {result : UnifiedSearchResult F}
    (hdistinct : ((vector ++ [result]).map UnifiedSearchResult.nodeId).Nodup)
    (hnumbered : ∀ i other, (vector ++ [result])[i]? = some other → other.cosineRank.toNat = i + 1)
    (hnew : result.bm25fRank = 0 ∧ result.bm25fScore = 0) :
    MergesLists text (vector ++ [result]) (mergeVector merged result) := by
  -- the node, the rank and the score of the result itself
  have hself : RankedIn UnifiedSearchResult.cosineScore (vector ++ [result]) result.nodeId
      result.cosineRank result.cosineScore :=
    .of_numbered hdistinct hnumbered (List.mem_append_right _ (List.mem_singleton_self result))
  have hiff : ∀ nodeId, nodeId ∈ (vector ++ [result]).map UnifiedSearchResult.nodeId ↔
      nodeId ∈ vector.map UnifiedSearchResult.nodeId ∨ nodeId = result.nodeId := by
    intro nodeId
    rw [List.map_append, List.mem_append, List.map_singleton, List.mem_singleton]
  by_cases hmem : result.nodeId ∈ merged.map UnifiedSearchResult.nodeId
  · rw [mergeVector_of_mem h.nodup hmem]
    have hnodes : (merged.map result.withVector).map UnifiedSearchResult.nodeId =
        merged.map UnifiedSearchResult.nodeId := by
      rw [List.map_map]
      exact List.map_congr_left fun other _ => (withVector_same result other).1
    refine ⟨hnodes ▸ h.nodup, fun nodeId => ?_, fun merging hmerging => ?_, fun merging hmerging => ?_⟩
    · rw [hnodes, h.mem_iff, hiff, ← or_assoc]
      refine (or_iff_left_of_imp fun hsame => ?_).symm
      rw [hsame]
      exact (h.mem_iff _).mp hmem
    · obtain ⟨other, hother, rfl⟩ := List.mem_map.mp hmerging
      obtain ⟨hnode, hrank, hscore⟩ := withVector_same result other
      rw [hnode, hrank, hscore]
      exact h.text other hother
    · obtain ⟨other, hother, rfl⟩ := List.mem_map.mp hmerging
      rw [UnifiedSearchResult.withVector]
      by_cases hsame : other.nodeId = result.nodeId
      · rw [if_pos hsame, hsame]
        exact hself
      · rw [if_neg hsame]
        exact (h.vector other hother).concat_of_ne (Ne.symm hsame)
  · rw [mergeVector_of_not_mem hmem]
    refine ⟨?_, fun nodeId => ?_, fun merging hmerging => ?_, fun merging hmerging => ?_⟩
    · rw [List.map_append, List.map_singleton, ← List.concat_eq_append]
      exact h.nodup.concat hmem
    · rw [List.map_append, List.mem_append, List.map_singleton, List.mem_singleton, h.mem_iff, hiff, or_assoc]
    · obtain hmerging | hmerging := List.mem_append.mp hmerging
      · exact h.text merging hmerging
      · rw [List.mem_singleton.mp hmerging, hnew.1, hnew.2]
        exact .absent fun htext => hmem ((h.mem_iff _).mpr (Or.inl htext))
    · obtain hmerging | hmerging := List.mem_append.mp hmerging
      · refine (h.vector merging hmerging).concat_of_ne fun hsame => hmem ?_
        exact hsame ▸ List.mem_map_of_mem hmerging
      · rw [List.mem_singleton.mp hmerging]
        exact hself

/-- Merging all results of the vector search. -/
theorem mergesLists_foldl {text vector : List (UnifiedSearchResult F)}
    (htext : (text.map UnifiedSearchResult.nodeId).Nodup)
    (htextRanks : ∀ i result, text[i]? = some result → result.bm25fRank.toNat = i + 1)
    (htextNew : ∀ result ∈ text, result.cosineRank = 0 ∧ result.cosineScore = 0)
    (hvector : (vector.map UnifiedSearchResult.nodeId).Nodup)
    (hvectorRanks : ∀ i result, vector[i]? = some result → result.cosineRank.toNat = i + 1)
    (hvectorNew : ∀ result ∈ vector, result.bm25fRank = 0 ∧ result.bm25fScore = 0) :
    MergesLists text vector (vector.foldl mergeVector text) := by
  induction vector using List.reverseRecOn with
  | nil => exact mergesLists_nil htext htextRanks htextNew
  | append_singleton vector result ih =>
    have hranks : ∀ (i : ℕ) (other : UnifiedSearchResult F), vector[i]? = some other →
        other.cosineRank.toNat = i + 1 := by
      intro i other hother
      apply hvectorRanks i other
      rw [List.getElem?_append_left (List.getElem?_eq_some_iff.mp hother).1, hother]
    have hless : (vector.map UnifiedSearchResult.nodeId).Nodup := by
      rw [List.map_append] at hvector
      exact hvector.of_append_left
    have hmerged := ih hless hranks fun other hother => hvectorNew other (List.mem_append_left _ hother)
    rw [List.foldl_append]
    exact hmerged.concat hvector hvectorRanks
      (hvectorNew result (List.mem_append_right _ (List.mem_singleton_self result)))

end FtsUring
