import FtsUring.Engine.MergedLists

/-!
# The fused scores

A fused score is the sum of the reciprocals of the ranks in the two lists. A result that comes before another
one in both lists has a fused score that is not smaller, unless its cosine is exactly zero: then its rank in
the vector list does not count, although the one of a result with a negative cosine behind it does.
-/

namespace FtsUring

open Foundation

variable {F : Type} [Double F]

/-- The sums of reciprocal ranks: the arithmetic rounds monotonically, and zero is neutral. -/
structure FusionArithmetic (shares : F → Prop) : Prop where
  zero : shares 0
  reciprocal : ∀ rank, shares (reciprocalRank rank)
  zero_add : ∀ a, shares a → 0 + a = a
  add_zero : ∀ a, shares a → a + 0 = a
  nonneg : ∀ a, shares a → ¬a < 0
  irrefl : ∀ a, shares a → ¬a < a
  antitone : ∀ rank later : UInt32, 0 < rank.toNat → rank.toNat ≤ later.toNat →
    later.toNat ≤ maxResultsPerShard * maxShards → ¬(reciprocalRank rank : F) < reciprocalRank later
  add_le_add : ∀ a b c d, shares a → shares b → shares c → shares d → ¬a < b → ¬c < d → ¬a + c < b + d

/-! ## Places -/

section Places

variable {key : UnifiedSearchResult F → F} {sorted : List (UnifiedSearchResult F)}
  {nodeId other : Vector UInt8 16} {rank : UInt32} {score : F}

/-- One node is before another one. -/
def RankedBefore (sorted : List (UnifiedSearchResult F)) (nodeId other : Vector UInt8 16) : Prop :=
  ∃ i j : ℕ, i < j ∧ (sorted.map UnifiedSearchResult.nodeId)[i]? = some nodeId ∧
    (sorted.map UnifiedSearchResult.nodeId)[j]? = some other

/-- The reciprocal of the place of a node, or zero when it has none. -/
def placeShare (sorted : List (UnifiedSearchResult F)) (nodeId : Vector UInt8 16) : F :=
  match (sorted.map UnifiedSearchResult.nodeId).idxOf? nodeId with
  | some i => reciprocalRank (UInt32.ofNat (i + 1))
  | none => 0

/-- A node without a place. -/
theorem placeShare_of_not_mem (h : nodeId ∉ sorted.map UnifiedSearchResult.nodeId) :
    placeShare sorted nodeId = 0 := by
  rw [placeShare, List.idxOf?_eq_none_iff.mpr h]

/-- A node at a place. -/
theorem placeShare_of_getElem? (hdistinct : (sorted.map UnifiedSearchResult.nodeId).Nodup) {i : ℕ}
    (h : (sorted.map UnifiedSearchResult.nodeId)[i]? = some nodeId) :
    placeShare sorted nodeId = reciprocalRank (UInt32.ofNat (i + 1)) := by
  obtain ⟨j, hj⟩ := Option.isSome_iff_exists.mp (List.isSome_idxOf?.mpr (List.mem_of_getElem? h))
  have hplace : (sorted.map UnifiedSearchResult.nodeId)[j]? = some nodeId := by
    obtain ⟨hbound, hfound, -⟩ := List.idxOf?_eq_some_iff.mp hj
    rw [List.getElem?_eq_getElem hbound, hfound]
  have hbound := (List.getElem?_eq_some_iff.mp hplace).1
  rw [placeShare, hj, (List.getElem?_inj hbound hdistinct).mp (hplace.trans h.symm)]

/-- The rank of a node is its place. -/
theorem RankedIn.placeShare_eq (h : RankedIn key sorted nodeId rank score)
    (hdistinct : (sorted.map UnifiedSearchResult.nodeId).Nodup)
    (hmem : nodeId ∈ sorted.map UnifiedSearchResult.nodeId) :
    0 < rank ∧ placeShare sorted nodeId = reciprocalRank rank := by
  obtain ⟨i, hi⟩ := List.mem_iff_getElem?.mp hmem
  have hrank := (h.rank_iff i).mpr hi
  have hsame : UInt32.ofNat (i + 1) = rank := by rw [← hrank, UInt32.ofNat_toNat]
  refine ⟨UInt32.pos_iff_ne_zero.mpr fun hzero => h.rank_zero_iff.mp hzero hmem, ?_⟩
  rw [placeShare_of_getElem? hdistinct hi, hsame]

variable {shares : F → Prop}

/-- The share of a place. -/
theorem FusionArithmetic.shares_placeShare (h : FusionArithmetic shares) (sorted : List (UnifiedSearchResult F))
    (nodeId : Vector UInt8 16) : shares (placeShare sorted nodeId) := by
  rw [placeShare]
  split
  · exact h.reciprocal _
  · exact h.zero

/-- A node that is before another one has a share that is not smaller. -/
theorem FusionArithmetic.not_lt_of_rankedBefore (h : FusionArithmetic shares)
    (hdistinct : (sorted.map UnifiedSearchResult.nodeId).Nodup)
    (hlength : sorted.length ≤ maxResultsPerShard * maxShards) (hbefore : RankedBefore sorted nodeId other) :
    ¬placeShare sorted nodeId < placeShare sorted other := by
  obtain ⟨i, j, hij, hi, hj⟩ := hbefore
  have hbound := (List.getElem?_eq_some_iff.mp hj).1
  rw [List.length_map] at hbound
  have hrank := toNat_rank (hij.trans hbound) hlength
  have hlater := toNat_rank hbound hlength
  rw [placeShare_of_getElem? hdistinct hi, placeShare_of_getElem? hdistinct hj]
  apply h.antitone
  · omega
  · omega
  · omega

/-- A node that is before another one, or whose counterpart has no place. -/
theorem FusionArithmetic.not_lt_of_before_or_absent (h : FusionArithmetic shares)
    (hdistinct : (sorted.map UnifiedSearchResult.nodeId).Nodup)
    (hlength : sorted.length ≤ maxResultsPerShard * maxShards)
    (hbefore : RankedBefore sorted nodeId other ∨ other ∉ sorted.map UnifiedSearchResult.nodeId) :
    ¬placeShare sorted nodeId < placeShare sorted other := by
  obtain hbefore | habsent := hbefore
  · exact h.not_lt_of_rankedBefore hdistinct hlength hbefore
  · rw [placeShare_of_not_mem habsent]
    exact h.nonneg _ (h.shares_placeShare sorted nodeId)

end Places

/-! ## The fused score of a merged result -/

section Fused

variable {shares : F → Prop} {sortedText sortedVector merged : List (UnifiedSearchResult F)}

/-- The cosine is not zero. -/
def UnifiedSearchResult.CosineCounts (result : UnifiedSearchResult F) : Prop :=
  0 < result.cosineScore ∨ result.cosineScore < 0

instance (result : UnifiedSearchResult F) : Decidable result.CosineCounts :=
  inferInstanceAs (Decidable (_ ∨ _))

/-- The share of the vector list in a fused score. -/
def cosineShare (sortedVector : List (UnifiedSearchResult F)) (result : UnifiedSearchResult F) : F :=
  if result.CosineCounts then placeShare sortedVector result.nodeId else 0

/-- The share of the vector list. -/
theorem FusionArithmetic.shares_cosineShare (h : FusionArithmetic shares) (sortedVector : List (UnifiedSearchResult F))
    (result : UnifiedSearchResult F) : shares (cosineShare sortedVector result) := by
  rw [cosineShare]
  split_ifs
  · exact h.shares_placeShare sortedVector result.nodeId
  · exact h.zero

/-- A fused score is the sum of two shares. -/
theorem MergesLists.fusedScore_eq (h : MergesLists sortedText sortedVector merged)
    (harith : FusionArithmetic shares) (htext : (sortedText.map UnifiedSearchResult.nodeId).Nodup)
    (hvector : (sortedVector.map UnifiedSearchResult.nodeId).Nodup)
    (hpositive : ∀ result ∈ sortedText, 0 < result.bm25fScore) {result : UnifiedSearchResult F}
    (hresult : result ∈ merged) :
    fusedScore result = placeShare sortedText result.nodeId + cosineShare sortedVector result := by
  have hzero := harith.irrefl 0 harith.zero
  -- the share of the text list
  have hfirst : (if 0 < result.bm25fScore then 0 + reciprocalRank result.bm25fRank else 0) =
      placeShare sortedText result.nodeId := by
    have hranked := h.text result hresult
    by_cases hmem : result.nodeId ∈ sortedText.map UnifiedSearchResult.nodeId
    · obtain ⟨other, hother, hsame⟩ := List.mem_map.mp hmem
      have hscore := hranked.score_listed other hother hsame
      rw [if_pos (hscore ▸ hpositive other hother), harith.zero_add _ (harith.reciprocal _),
        (hranked.placeShare_eq htext hmem).2]
    · rw [if_neg (by rw [hranked.score_absent hmem]; exact hzero), placeShare_of_not_mem hmem]
  have hranked := h.vector result hresult
  rw [fusedScore, hfirst, cosineShare]
  by_cases hcounts : result.CosineCounts
  · have hmem : result.nodeId ∈ sortedVector.map UnifiedSearchResult.nodeId := by
      by_contra habsent
      rw [UnifiedSearchResult.CosineCounts, hranked.score_absent habsent] at hcounts
      exact hcounts.elim hzero hzero
    obtain ⟨hrank, hshare⟩ := hranked.placeShare_eq hvector hmem
    rw [if_pos ⟨hcounts, hrank⟩, if_pos hcounts, hshare]
  · rw [if_neg fun hboth => hcounts hboth.1, if_neg hcounts,
      harith.add_zero _ (harith.shares_placeShare sortedText result.nodeId)]

/-- Two ranked lists and their merge, where the text scores are positive and the cosines descend. -/
structure FusesLists (numbers : F → Prop) (sortedText sortedVector merged : List (UnifiedSearchResult F)) :
    Prop where
  linear : LinearOn numbers
  zero : numbers 0
  merges : MergesLists sortedText sortedVector merged
  textNodup : (sortedText.map UnifiedSearchResult.nodeId).Nodup
  vectorNodup : (sortedVector.map UnifiedSearchResult.nodeId).Nodup
  textLength : sortedText.length ≤ maxResultsPerShard * maxShards
  vectorLength : sortedVector.length ≤ maxResultsPerShard * maxShards
  positive : ∀ result ∈ sortedText, 0 < result.bm25fScore
  cosines : ∀ result ∈ sortedVector, numbers result.cosineScore
  descending : sortedVector.Pairwise fun a b => ¬a.cosineScore < b.cosineScore

/-- One result is before another one in the vector list, and either also in the text list or the other one is
not there. -/
def RankedAbove (sortedText sortedVector : List (UnifiedSearchResult F)) (a b : UnifiedSearchResult F) : Prop :=
  RankedBefore sortedVector a.nodeId b.nodeId ∧
    (RankedBefore sortedText a.nodeId b.nodeId ∨ b.nodeId ∉ sortedText.map UnifiedSearchResult.nodeId)

/-- A result of which the cosine is zero has enough from the text list for not being overtaken by a result with
a negative cosine behind it. -/
def ZeroCosinesHarmless (sortedText sortedVector : List (UnifiedSearchResult F)) : Prop :=
  ∀ a ∈ sortedVector, ∀ b ∈ sortedVector, ¬a.CosineCounts → b.cosineScore < 0 →
    (RankedBefore sortedText a.nodeId b.nodeId ∨ b.nodeId ∉ sortedText.map UnifiedSearchResult.nodeId) →
      ¬placeShare sortedText a.nodeId < placeShare sortedText b.nodeId + placeShare sortedVector b.nodeId

variable {numbers : F → Prop}

/-- The cosines of two merged results of which one is before the other one in the vector list. -/
theorem FusesLists.cosines_descend (h : FusesLists numbers sortedText sortedVector merged)
    {a b : UnifiedSearchResult F} (ha : a ∈ merged) (hb : b ∈ merged)
    (hbefore : RankedBefore sortedVector a.nodeId b.nodeId) :
    ¬a.cosineScore < b.cosineScore ∧ numbers a.cosineScore ∧ numbers b.cosineScore := by
  obtain ⟨i, j, hij, hi, hj⟩ := hbefore
  rw [List.getElem?_map] at hi hj
  obtain ⟨first, hfirst, hfirstNode⟩ := Option.map_eq_some_iff.mp hi
  obtain ⟨second, hsecond, hsecondNode⟩ := Option.map_eq_some_iff.mp hj
  have hfirstMem := List.mem_of_getElem? hfirst
  have hsecondMem := List.mem_of_getElem? hsecond
  rw [(h.merges.vector a ha).score_listed first hfirstMem hfirstNode,
    (h.merges.vector b hb).score_listed second hsecondMem hsecondNode]
  refine ⟨?_, h.cosines first hfirstMem, h.cosines second hsecondMem⟩
  obtain ⟨hfirstBound, rfl⟩ := List.getElem?_eq_some_iff.mp hfirst
  obtain ⟨hsecondBound, rfl⟩ := List.getElem?_eq_some_iff.mp hsecond
  exact List.pairwise_iff_getElem.mp h.descending i j hfirstBound hsecondBound hij

/-- The merged result for an entry of the vector list. -/
theorem FusesLists.exists_merged (h : FusesLists numbers sortedText sortedVector merged)
    {entry : UnifiedSearchResult F} (hentry : entry ∈ sortedVector) :
    ∃ result ∈ merged, result.nodeId = entry.nodeId ∧ result.cosineScore = entry.cosineScore := by
  have hnode := (h.merges.mem_iff entry.nodeId).mpr (Or.inr (List.mem_map_of_mem hentry))
  obtain ⟨result, hresult, hsame⟩ := List.mem_map.mp hnode
  exact ⟨result, hresult, hsame, (h.merges.vector result hresult).score_listed entry hentry hsame.symm⟩

/-- The entries of the vector list are in the order of their cosines. -/
theorem FusesLists.rankedBefore_of_lt (h : FusesLists numbers sortedText sortedVector merged)
    {a b : UnifiedSearchResult F} (ha : a ∈ sortedVector) (hb : b ∈ sortedVector)
    (hlt : b.cosineScore < a.cosineScore) : RankedBefore sortedVector a.nodeId b.nodeId := by
  obtain ⟨i, hi, rfl⟩ := List.mem_iff_getElem.mp ha
  obtain ⟨j, hj, rfl⟩ := List.mem_iff_getElem.mp hb
  have hnode : ∀ k (hk : k < sortedVector.length),
      (sortedVector.map UnifiedSearchResult.nodeId)[k]? = some sortedVector[k].nodeId := by
    intro k hk
    rw [List.getElem?_map, List.getElem?_eq_getElem hk, Option.map_some]
  refine ⟨i, j, ?_, hnode i hi, hnode j hj⟩
  by_contra hle
  obtain heq | hlater := (not_lt.mp hle).eq_or_lt
  · subst heq
    exact h.linear.irrefl _ (h.cosines _ ha) hlt
  · exact List.pairwise_iff_getElem.mp h.descending j i hj hi hlater hlt

/-- The fused score of a result without a cosine that counts. -/
theorem FusesLists.fusedScore_of_not_counts (h : FusesLists numbers sortedText sortedVector merged)
    (harith : FusionArithmetic shares) {result : UnifiedSearchResult F} (hresult : result ∈ merged)
    (hcounts : ¬result.CosineCounts) : fusedScore result = placeShare sortedText result.nodeId := by
  rw [h.merges.fusedScore_eq harith h.textNodup h.vectorNodup h.positive hresult, cosineShare, if_neg hcounts,
    harith.add_zero _ (harith.shares_placeShare _ _)]

/-- The fused score of a result with a cosine that counts. -/
theorem FusesLists.fusedScore_of_counts (h : FusesLists numbers sortedText sortedVector merged)
    (harith : FusionArithmetic shares) {result : UnifiedSearchResult F} (hresult : result ∈ merged)
    (hcounts : result.CosineCounts) :
    fusedScore result = placeShare sortedText result.nodeId + placeShare sortedVector result.nodeId := by
  rw [h.merges.fusedScore_eq harith h.textNodup h.vectorNodup h.positive hresult, cosineShare, if_pos hcounts]

/-- When fusing respects the rankings, zero cosines do no harm. -/
theorem FusesLists.zeroCosinesHarmless (h : FusesLists numbers sortedText sortedVector merged)
    (harith : FusionArithmetic shares)
    (hrespects : ∀ a ∈ merged, ∀ b ∈ merged, RankedAbove sortedText sortedVector a b →
      ¬fusedScore a < fusedScore b) : ZeroCosinesHarmless sortedText sortedVector := by
  intro first hfirst second hsecond hzero hnegative htext
  obtain ⟨a, ha, hnode, hcosine⟩ := h.exists_merged hfirst
  obtain ⟨b, hb, hnode', hcosine'⟩ := h.exists_merged hsecond
  have hsmaller : second.cosineScore < first.cosineScore := by
    obtain hlt | heq | hgt := h.linear.trichotomy _ _ (h.cosines first hfirst) h.zero
    · exact absurd (Or.inr hlt) hzero
    · rwa [heq]
    · exact absurd (Or.inl hgt) hzero
  have hcounts : ¬a.CosineCounts := by
    rwa [UnifiedSearchResult.CosineCounts, hcosine]
  have hcounts' : b.CosineCounts := Or.inr (hcosine' ▸ hnegative)
  have hbefore := h.rankedBefore_of_lt hfirst hsecond hsmaller
  rw [← hnode, ← hnode'] at htext hbefore ⊢
  have hall := hrespects a ha b hb ⟨hbefore, htext⟩
  rwa [h.fusedScore_of_not_counts harith ha hcounts, h.fusedScore_of_counts harith hb hcounts'] at hall

/-- When zero cosines do no harm, fusing respects the rankings. -/
theorem FusesLists.not_fusedScore_lt (h : FusesLists numbers sortedText sortedVector merged)
    (harith : FusionArithmetic shares) (hharmless : ZeroCosinesHarmless sortedText sortedVector)
    {a b : UnifiedSearchResult F} (ha : a ∈ merged) (hb : b ∈ merged)
    (habove : RankedAbove sortedText sortedVector a b) : ¬fusedScore a < fusedScore b := by
  obtain ⟨hbefore, htext⟩ := habove
  obtain ⟨hcosines, hnumber, hnumber'⟩ := h.cosines_descend ha hb hbefore
  have htextShare := harith.not_lt_of_before_or_absent h.textNodup h.textLength htext
  have hvectorShare := harith.not_lt_of_rankedBefore h.vectorNodup h.vectorLength hbefore
  by_cases hcounts : a.CosineCounts
  · have hshare : ¬placeShare sortedVector a.nodeId < cosineShare sortedVector b := by
      rw [cosineShare]
      split_ifs
      · exact hvectorShare
      · exact harith.nonneg _ (harith.shares_placeShare _ _)
    rw [h.fusedScore_of_counts harith ha hcounts,
      h.merges.fusedScore_eq harith h.textNodup h.vectorNodup h.positive hb]
    exact harith.add_le_add _ _ _ _ (harith.shares_placeShare _ _) (harith.shares_placeShare _ _)
      (harith.shares_placeShare _ _) (harith.shares_cosineShare _ _) htextShare hshare
  · rw [h.fusedScore_of_not_counts harith ha hcounts]
    by_cases hcounts' : b.CosineCounts
    · -- the cosine of `a` is zero, so the one of `b` is negative
      have hnegative : b.cosineScore < 0 := by
        obtain hpositive | hnegative := hcounts'
        · obtain hlt | heq | hgt := h.linear.trichotomy _ _ hnumber h.zero
          · exact absurd (Or.inr hlt) hcounts
          · exact absurd (heq ▸ hpositive) hcosines
          · exact absurd (Or.inl hgt) hcounts
        · exact hnegative
      obtain ⟨i, j, -, hi, hj⟩ := hbefore
      rw [List.getElem?_map] at hi hj
      obtain ⟨first, hfirst, hfirstNode⟩ := Option.map_eq_some_iff.mp hi
      obtain ⟨second, hsecond, hsecondNode⟩ := Option.map_eq_some_iff.mp hj
      have hfirstMem := List.mem_of_getElem? hfirst
      have hsecondMem := List.mem_of_getElem? hsecond
      have hscore := (h.merges.vector a ha).score_listed first hfirstMem hfirstNode
      have hscore' := (h.merges.vector b hb).score_listed second hsecondMem hsecondNode
      rw [h.fusedScore_of_counts harith hb hcounts', ← hfirstNode, ← hsecondNode]
      rw [UnifiedSearchResult.CosineCounts, hscore] at hcounts
      exact hharmless first hfirstMem second hsecondMem hcounts (hscore' ▸ hnegative)
        (by rwa [hfirstNode, hsecondNode])
    · rwa [h.fusedScore_of_not_counts harith hb hcounts']

end Fused

/-! ## Hybrid queries -/

section Hybrid

variable {numbers shares : F → Prop} {engine : UnifiedEngine F} {query : UnifiedQuery}
  {contents : List (List UnifiedDocRecord)} {qsort : List (UnifiedSearchResult F) → List (UnifiedSearchResult F)}
  {text vector : List (UnifiedSearchResult F)}

/-- One result is before another one in an answer that has the other one. -/
def PrecedesIn (output : List (UnifiedSearchResult F)) (a b : UnifiedSearchResult F) : Prop :=
  ∀ j : ℕ, output[j]? = some b → ∃ i < j, output[i]? = some a

/-- A result that is above another one in the gathered lists has a fused score that is not smaller, and it
precedes the other one in every answer when its fused score is larger. -/
def RespectsRankings (qsort : List (UnifiedSearchResult F) → List (UnifiedSearchResult F))
    (engine : UnifiedEngine F) (query : UnifiedQuery) (text vector : List (UnifiedSearchResult F)) : Prop :=
  ∀ maxResults, ∃ output engine', engineSearch qsort engine query maxResults = some (output, engine') ∧
    ∀ a ∈ scoredResults query (mergedResults query text vector),
      ∀ b ∈ scoredResults query (mergedResults query text vector),
        RankedAbove (exchangeSort UnifiedSearchResult.bm25fScore text)
          (exchangeSort UnifiedSearchResult.cosineScore vector) a b →
        ¬a.rrfScore < b.rrfScore ∧ (b.rrfScore < a.rrfScore → PrecedesIn output a b)

omit [Double F] in
/-- In a sorted list a larger result is before a smaller one. -/
theorem precedesIn_take [LT F] {numbers : F → Prop} (hlinear : LinearOn numbers)
    {final : List (UnifiedSearchResult F)}
    (hsorted : final.Pairwise fun a b => ¬a.rrfScore < b.rrfScore) {a b : UnifiedSearchResult F}
    (hnumber : numbers a.rrfScore) (ha : a ∈ final) (hlt : b.rrfScore < a.rrfScore) (maxResults : ℕ) :
    PrecedesIn (final.take maxResults) a b := by
  intro j hj
  obtain ⟨i, hi, rfl⟩ := List.mem_iff_getElem.mp ha
  rw [List.getElem?_take] at hj
  split_ifs at hj with hbound
  obtain ⟨hjBound, rfl⟩ := List.getElem?_eq_some_iff.mp hj
  have hij : i < j := by
    by_contra hle
    obtain heq | hlater := (not_lt.mp hle).eq_or_lt
    · subst heq
      exact hlinear.irrefl _ hnumber hlt
    · exact List.pairwise_iff_getElem.mp hsorted j i hjBound hi hlater hlt
  refine ⟨i, hij, ?_⟩
  rw [List.getElem?_take, if_pos (hij.trans hbound), List.getElem?_eq_getElem hi]

/-- What an engine fuses for a hybrid query. -/
theorem GatheredFor.fusesLists (h : GatheredFor numbers engine.params query contents text vector)
    (hmany : contents.length ≤ maxShards) (hlinear : LinearOn numbers) (hzero : numbers 0) :
    FusesLists numbers (exchangeSort UnifiedSearchResult.bm25fScore text)
      (exchangeSort UnifiedSearchResult.cosineScore vector) (mergedResults query text vector) := by
  have htext := @perm_exchangeSort _ _ _ _ (UnifiedSearchResult.bm25fScore (F := F)) text
  have hvector := @perm_exchangeSort _ _ _ _ (UnifiedSearchResult.cosineScore (F := F)) vector
  have hlimit : maxResultsPerShard * contents.length ≤ maxResultsPerShard * maxShards :=
    Nat.mul_le_mul_left _ hmany
  exact {
    linear := hlinear
    zero := hzero
    merges := h.mergesLists hmany
    textNodup := (htext.map _).nodup_iff.mpr h.fromText.nodup
    vectorNodup := (hvector.map _).nodup_iff.mpr h.fromVector.nodup
    textLength := htext.length_eq.trans_le (h.fromText.length_le.trans hlimit)
    vectorLength := hvector.length_eq.trans_le (h.fromVector.length_le.trans hlimit)
    positive := fun result hresult => by
      obtain ⟨rec, -, hsome⟩ := h.fromText.found result (htext.mem_iff.mp hresult)
      rw [Ranking.resultOf] at hsome
      split_ifs at hsome with hadmits
      rw [← Option.some.inj hsome]
      exact of_decide_eq_true hadmits
    cosines := fun result hresult => h.vectorNumbers result (hvector.mem_iff.mp hresult)
    descending := pairwise_exchangeSort hlinear h.vectorNumbers }

/-- When a hybrid query respects the rankings, zero cosines do no harm. -/
theorem GatheredFor.zeroCosinesHarmless (h : GatheredFor numbers engine.params query contents text vector)
    (hmany : contents.length ≤ maxShards) (hlinear : LinearOn numbers) (hzero : numbers 0)
    (harith : FusionArithmetic shares) (hhybrid : query.useText ∧ query.useVector)
    (hrespects : RespectsRankings qsort engine query text vector) :
    ZeroCosinesHarmless (exchangeSort UnifiedSearchResult.bm25fScore text)
      (exchangeSort UnifiedSearchResult.cosineScore vector) := by
  apply (h.fusesLists hmany hlinear hzero).zeroCosinesHarmless harith
  intro a ha b hb habove
  obtain ⟨output, engine', -, hall⟩ := hrespects 0
  rw [scoredResults, if_pos hhybrid] at hall
  exact (hall _ (List.mem_map_of_mem ha) _ (List.mem_map_of_mem hb) habove).1

/-- A hybrid query respects both rankings exactly when zero cosines do no harm. -/
theorem respectsRankings_iff (hstores : List.Forall₂ EngineShard.Stores engine.shards contents)
    (hmany : engine.shards.length ≤ maxShards)
    (hdistinct : (contents.flatten.map UnifiedDocRecord.nodeId).Nodup)
    (hcomparable : Comparable numbers engine.params query contents) (hzero : numbers 0)
    (hqsort : SortsByFusedScore numbers qsort) (harith : FusionArithmetic shares)
    (hhybrid : query.useText ∧ query.useVector) :
    ∃ found shards', scatter (searchShard engine.params query) engine.shards = some (found, shards') ∧
      (RespectsRankings qsort engine query (found.flatMap Prod.fst) (found.flatMap Prod.snd) ↔
        ZeroCosinesHarmless (exchangeSort UnifiedSearchResult.bm25fScore (found.flatMap Prod.fst))
          (exchangeSort UnifiedSearchResult.cosineScore (found.flatMap Prod.snd))) := by
  obtain ⟨found, shards', hscatter, hgathered⟩ := exists_gathered hstores hcomparable hdistinct
  have hcontents : contents.length ≤ maxShards := hstores.length_eq ▸ hmany
  refine ⟨found, shards', hscatter,
    hgathered.zeroCosinesHarmless hcontents hcomparable.linear hzero harith hhybrid, ?_⟩
  intro hharmless maxResults
  have hfuses := hgathered.fusesLists hcontents hcomparable.linear hzero
  have hfinal := hgathered.comparable hcontents hcomparable
  obtain ⟨hperm, hsorted⟩ := fuseResults_sorted hcomparable.linear hqsort hfinal
  have hscore : finalScore query = (UnifiedSearchResult.rrfScore : UnifiedSearchResult F → F) := if_pos hhybrid
  rw [hscore] at hfinal hsorted
  refine ⟨_, { engine with shards := shards' }, by rw [engineSearch, hscatter]; rfl, ?_⟩
  intro a ha b hb habove
  refine ⟨?_, fun hlt => precedesIn_take hcomparable.linear hsorted (hfinal a ha) (hperm.mem_iff.mpr ha) hlt _⟩
  rw [scoredResults, if_pos hhybrid] at ha hb
  obtain ⟨first, hfirst, rfl⟩ := List.mem_map.mp ha
  obtain ⟨second, hsecond, rfl⟩ := List.mem_map.mp hb
  exact hfuses.not_fusedScore_lt harith hharmless hfirst hsecond habove

end Hybrid

/-! ## A document with the cosine zero -/

/-- Exact sums of reciprocal ranks. -/
theorem fusionArithmetic_rat : FusionArithmetic fun share : ℚ => 0 ≤ share where
  zero := le_refl _
  reciprocal rank := by
    change 0 ≤ (1 : ℚ) / ((rrfK + rank).toNat : ℚ)
    positivity
  zero_add a _ := zero_add a
  add_zero a _ := add_zero a
  nonneg _ ha := not_lt.mpr ha
  irrefl a _ := lt_irrefl a
  antitone rank later _ hle hbound := by
    have hlimit : maxResultsPerShard * maxShards = 1024 := rfl
    have hsum : ∀ r : UInt32, r.toNat ≤ later.toNat → (rrfK + r).toNat = 60 + r.toNat := by
      intro r hr
      rw [UInt32.toNat_add]
      exact Nat.mod_eq_of_lt (by change 60 + r.toNat < 2 ^ 32; omega)
    change ¬(1 : ℚ) / ((rrfK + rank).toNat : ℚ) < 1 / ((rrfK + later).toNat : ℚ)
    rw [hsum rank hle, hsum later (le_refl _), not_lt]
    apply one_div_le_one_div_of_le
    · positivity
    · exact_mod_cast Nat.add_le_add_left hle 60
  add_le_add _ _ _ _ _ _ _ _ hab hcd := not_lt.mpr (add_le_add (not_lt.mp hab) (not_lt.mp hcd))

/-- A query for a first coordinate of 1. -/
def firstCoordinateQuery : UnifiedQuery := ⟨[7], false, firstCoordinate 0x3F800000, true, true⟩

/-- A document with a first coordinate and without the terms of a query. -/
def coordinateDocument (nodeId : UInt8) (bits : UInt32) : Document :=
  { Document.ofTerms nodeId 0 [] length_noTerms with embedding := firstCoordinate bits }

/-- A document with the zero vector, and one with a first coordinate of -1. -/
def oppositeDocuments : List ShardUpdate :=
  [.insert (coordinateDocument 1 0), .insert (coordinateDocument 2 0xBF800000)]

/-- The result of the vector search for a record. -/
theorem resultOf_vectorRanking (queryVec : Vector UInt32 embeddingDim) (rec : UnifiedDocRecord) :
    (vectorRanking queryVec : Ranking F).resultOf rec =
      some (vectorResult rec.nodeId (computeCosineSimilarity queryVec rec.embedding)) := by
  simp only [Ranking.resultOf, vectorRanking, if_true]

/-- A first coordinate of 0 is neither like nor unlike one of 1. -/
theorem cosine_zero : (computeCosineSimilarity (firstCoordinate 0x3F800000) (firstCoordinate 0) : ℚ) = 0 := by
  rw [cosine_firstCoordinate]
  decide +kernel

/-- A first coordinate of 1 is like itself. -/
theorem cosine_same : (computeCosineSimilarity (firstCoordinate 0x3F800000) (firstCoordinate 0x3F800000) : ℚ) =
    1 := by
  rw [cosine_firstCoordinate]
  decide +kernel

/-- A first coordinate of -1 is the opposite. -/
theorem cosine_opposite :
    (computeCosineSimilarity (firstCoordinate 0x3F800000) (firstCoordinate 0xBF800000) : ℚ) = -1 := by
  rw [cosine_firstCoordinate]
  decide +kernel

/-- The results of the vector search for two documents. -/
theorem resultsOf_two {first second : Document} {updates : List ShardUpdate}
    (hrecords : unmarkedRecords updates = [first.record 0, second.record 1]) {x y : ℚ}
    (hfirst : computeCosineSimilarity (firstCoordinate 0x3F800000) first.embedding = x)
    (hsecond : computeCosineSimilarity (firstCoordinate 0x3F800000) second.embedding = y) :
    (unmarkedRecords updates).filterMap (vectorRanking firstCoordinateQuery.queryEmbedding : Ranking ℚ).resultOf =
      [vectorResult first.nodeId x, vectorResult second.nodeId y] := by
  rw [hrecords, List.filterMap_cons_some (resultOf_vectorRanking _ _),
    List.filterMap_cons_some (resultOf_vectorRanking _ _), List.filterMap_nil]
  change [vectorResult first.nodeId (computeCosineSimilarity (firstCoordinate 0x3F800000) first.embedding),
    vectorResult second.nodeId (computeCosineSimilarity (firstCoordinate 0x3F800000) second.embedding)] = _
  rw [hfirst, hsecond]

/-- The results of the vector search for these documents. -/
theorem resultsOf_oppositeDocuments : (unmarkedRecords oppositeDocuments).filterMap
    (vectorRanking firstCoordinateQuery.queryEmbedding : Ranking ℚ).resultOf =
      [vectorResult (coordinateDocument 1 0).nodeId 0,
        vectorResult (coordinateDocument 2 0xBF800000).nodeId (-1)] := by
  have hrecords : unmarkedRecords oppositeDocuments =
      [(coordinateDocument 1 0).record 0, (coordinateDocument 2 0xBF800000).record 1] := by
    simp [unmarkedRecords, unmarkedDocuments, numberedDocuments, oppositeDocuments, insertedDocuments, deletedIds]
  exact @resultsOf_two (coordinateDocument 1 0) (coordinateDocument 2 0xBF800000) _ hrecords 0 (-1) cosine_zero
    cosine_opposite

/-- A document with the term of the query and a first coordinate. -/
def coordinateTermDocument (nodeId : UInt8) (bits : UInt32) : Document :=
  { coordinateDocument nodeId bits with tf := Vector.replicate maxFtsFields 1 }

/-- A document with a first coordinate of -1, and one with a first coordinate of 1. -/
def alignedDocuments : List ShardUpdate :=
  [.insert (coordinateTermDocument 1 0xBF800000), .insert (coordinateTermDocument 2 0x3F800000)]

/-- A query to an engine with a positive and a negative cosine respects the rankings. -/
theorem exists_respectsRankings : ∃ engine : UnifiedEngine ℚ,
    List.Forall₂ EngineShard.Ran engine.shards [alignedDocuments] ∧
    ∃ found shards', scatter (searchShard engine.params firstCoordinateQuery) engine.shards =
        some (found, shards') ∧
      (found.flatMap Prod.snd).map UnifiedSearchResult.cosineScore = [1, -1] ∧
      RespectsRankings (exchangeSort UnifiedSearchResult.rrfScore) engine firstCoordinateQuery
        (found.flatMap Prod.fst) (found.flatMap Prod.snd) := by
  obtain ⟨engine, hran, -⟩ := @exists_engine_ran [alignedDocuments] (by decide +kernel) (by decide +kernel)
  have hmany : engine.shards.length ≤ maxShards := by
    rw [hran.length_eq]
    decide
  have hstores := stores_of_ran hran (by decide +kernel)
  obtain ⟨found, shards', hscatter, -, hsnd⟩ := scatter_stored hstores engine.params firstCoordinateQuery
  obtain ⟨found', shards'', hscatter', hiff⟩ := respectsRankings_iff hstores hmany (by decide +kernel)
    (comparable_rat engine.params firstCoordinateQuery _) trivial sortsByFusedScore_exchangeSort fusionArithmetic_rat
    ⟨rfl, rfl⟩
  rw [hscatter, Option.some.injEq, Prod.mk.injEq] at hscatter'
  obtain ⟨rfl, rfl⟩ := hscatter'
  have hresults : (unmarkedRecords alignedDocuments).filterMap
      (vectorRanking firstCoordinateQuery.queryEmbedding : Ranking ℚ).resultOf =
        [vectorResult (coordinateTermDocument 1 0xBF800000).nodeId (-1),
          vectorResult (coordinateTermDocument 2 0x3F800000).nodeId 1] := by
    have hrecords : unmarkedRecords alignedDocuments =
        [(coordinateTermDocument 1 0xBF800000).record 0, (coordinateTermDocument 2 0x3F800000).record 1] := by
      simp [unmarkedRecords, unmarkedDocuments, numberedDocuments, alignedDocuments, insertedDocuments, deletedIds]
    exact @resultsOf_two (coordinateTermDocument 1 0xBF800000) (coordinateTermDocument 2 0x3F800000) _ hrecords (-1) 1
      cosine_opposite cosine_same
  have hcosines : (found.flatMap Prod.snd).map UnifiedSearchResult.cosineScore = [1, -1] := by
    have hasked : firstCoordinateQuery.useVector = true := rfl
    rw [hsnd, if_pos hasked, List.map_singleton, List.flatMap_singleton, bestOf, hresults]
    decide +kernel
  refine ⟨engine, hran, found, shards', hscatter, hcosines, hiff.mpr fun a ha _ _ hnone => absurd ?_ hnone⟩
  -- no cosine is zero
  have hmem := List.mem_map_of_mem (f := UnifiedSearchResult.cosineScore) ((perm_exchangeSort _).mem_iff.mp ha)
  rw [hcosines] at hmem
  obtain hone | hmem := List.mem_cons.mp hmem
  · exact .inl (hone ▸ zero_lt_one)
  · exact .inr (List.mem_singleton.mp hmem ▸ neg_one_lt_zero)

/-- An engine with these documents. -/
theorem exists_engine_opposite : ∃ engine : UnifiedEngine ℚ,
    List.Forall₂ EngineShard.Ran engine.shards [oppositeDocuments] ∧ engine.params = exactParams :=
  exists_engine_ran (by decide +kernel) (by decide +kernel)

/-- The document with the cosine 0 is before the one with the cosine -1 in the vector list, but it has the
fused score 0. -/
theorem exists_not_respectsRankings : ∃ engine : UnifiedEngine ℚ,
    List.Forall₂ EngineShard.Ran engine.shards [oppositeDocuments] ∧
    ∃ found shards', scatter (searchShard engine.params firstCoordinateQuery) engine.shards =
      some (found, shards') ∧
      ¬RespectsRankings (exchangeSort UnifiedSearchResult.rrfScore) engine firstCoordinateQuery
        (found.flatMap Prod.fst) (found.flatMap Prod.snd) := by
  obtain ⟨engine, hran, hparams⟩ := exists_engine_opposite
  have hmany : engine.shards.length ≤ maxShards := by
    rw [hran.length_eq]
    decide
  have hstores := stores_of_ran hran (by decide +kernel)
  obtain ⟨found, shards', hscatter, hfst, hsnd⟩ := scatter_stored hstores engine.params firstCoordinateQuery
  obtain ⟨found', shards'', hscatter', hgathered⟩ := exists_gathered hstores
    (comparable_rat engine.params firstCoordinateQuery _) (by decide +kernel)
  rw [hscatter, Option.some.injEq, Prod.mk.injEq] at hscatter'
  obtain ⟨rfl, rfl⟩ := hscatter'
  refine ⟨engine, hran, found, shards', hscatter, fun hrespects => ?_⟩
  have hharmless := hgathered.zeroCosinesHarmless (hstores.length_eq ▸ hmany) (linearOn_rat fun _ => True) trivial
    fusionArithmetic_rat ⟨rfl, rfl⟩ hrespects
  -- what the engine gathers
  have htext : found.flatMap Prod.fst = [] := by
    rw [hfst, hparams]
    decide +kernel
  have hvector : exchangeSort UnifiedSearchResult.cosineScore (found.flatMap Prod.snd) =
      [vectorResult (coordinateDocument 1 0).nodeId 0,
        vectorResult (coordinateDocument 2 0xBF800000).nodeId (-1)] := by
    have hasked : firstCoordinateQuery.useVector = true := rfl
    rw [hsnd, if_pos hasked, List.map_singleton, List.flatMap_singleton, bestOf, resultsOf_oppositeDocuments]
    decide +kernel
  rw [htext, hvector] at hharmless
  refine hharmless _ List.mem_cons_self _ (List.mem_cons_of_mem _ List.mem_cons_self) (by decide) (by decide)
    (Or.inr List.not_mem_nil) ?_
  decide +kernel

end FtsUring
