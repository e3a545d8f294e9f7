import FtsUring.Engine.Engine
import FtsUring.Search.Indexed

/-!
# Searching an engine

A query is sent to every shard, and what the shards return is sorted and cut off. A hybrid query ranks
the results of the text search and of the vector search, merges them by node id and sorts them by the sum
of the reciprocal ranks.

`qsort` of the C library is a parameter, because it does not say how it orders equal elements.
-/

namespace FtsUring

open Foundation

variable {F : Type} [Double F]

/-- A query. -/
structure UnifiedQuery where
  termIds : List UInt32
  isPhrase : Bool
  queryEmbedding : Vector UInt32 embeddingDim
  useText : Bool
  useVector : Bool

/-- `RRF_K`. -/
def rrfK : UInt32 := 60

/-- The parameters with which an engine scores texts. -/
def UnifiedEngine.params (engine : UnifiedEngine F) : Bm25fParams F :=
  ⟨1, engine.globalAvgdl, engine.fieldWeights, engine.k1, engine.b⟩

/-! ## Fusion -/

/-- The reciprocal of a rank. -/
def reciprocalRank (rank : UInt32) : F := 1 / Double.ofUInt32 (rrfK + rank)

/-- Sort by the text score and number the results. A result gets its number as soon as it is in its
place. -/
def rankText (results : List (UnifiedSearchResult F)) : List (UnifiedSearchResult F) :=
  (exchangeSort UnifiedSearchResult.bm25fScore results).mapIdx fun i result =>
    { result with bm25fRank := UInt32.ofNat (i + 1) }

/-- Sort by the cosine and number the results. -/
def rankVector (results : List (UnifiedSearchResult F)) : List (UnifiedSearchResult F) :=
  (exchangeSort UnifiedSearchResult.cosineScore results).mapIdx fun i result =>
    { result with cosineRank := UInt32.ofNat (i + 1) }

/-- Add a result of the vector search to the merged ones. -/
def mergeVector (merged : List (UnifiedSearchResult F)) (result : UnifiedSearchResult F) :
    List (UnifiedSearchResult F) :=
  match merged.findIdx? fun other => other.nodeId = result.nodeId with
  | some j => merged.modify j fun other =>
    { other with cosineScore := result.cosineScore, cosineRank := result.cosineRank }
  | none => merged ++ [result]

/-- The fused score of a result. -/
def fusedScore (result : UnifiedSearchResult F) : F :=
  let score : F := if 0 < result.bm25fScore then 0 + reciprocalRank result.bm25fRank else 0
  if (0 < result.cosineScore ∨ result.cosineScore < 0) ∧ 0 < result.cosineRank then
    score + reciprocalRank result.cosineRank
  else score

/-- Assign the fused scores and sort by them. -/
def computeRrfFusion (qsort : List (UnifiedSearchResult F) → List (UnifiedSearchResult F))
    (results : List (UnifiedSearchResult F)) : List (UnifiedSearchResult F) :=
  qsort (results.map fun result => { result with rrfScore := fusedScore result })

/-- Rank, merge and sort what all shards returned. -/
def fuseResults (qsort : List (UnifiedSearchResult F) → List (UnifiedSearchResult F))
    (query : UnifiedQuery) (bm25fAll vectorAll : List (UnifiedSearchResult F)) :
    List (UnifiedSearchResult F) :=
  let bm25fAll := if query.useText then rankText bm25fAll else bm25fAll
  let vectorAll := if query.useVector then rankVector vectorAll else vectorAll
  let merged := vectorAll.foldl mergeVector bm25fAll
  if query.useText ∧ query.useVector then computeRrfFusion qsort merged
  else if query.useText then exchangeSort UnifiedSearchResult.bm25fScore merged
  else exchangeSort UnifiedSearchResult.cosineScore merged

/-! ## Scattering a query -/

/-- The searches of one shard. The scan of the texts is given term 0. -/
def searchShard (params : Bm25fParams F) (query : UnifiedQuery) :
    PageProgram (List (UnifiedSearchResult F) × List (UnifiedSearchResult F)) := do
  let text ← if query.useText then shardSearchBm25f 0 params maxResultsPerShard else pure []
  let vector ← if query.useVector then shardSearchVector query.queryEmbedding maxResultsPerShard
    else pure []
  return (text, vector)

/-- Run a search on every shard. -/
def scatter {α : Type} (search : PageProgram α) :
    List (EngineShard F) → Option (List α × List (EngineShard F))
  | [] => some ([], [])
  | s :: rest =>
    (poolHandler.exec search s.machine).bind fun (found, machine) =>
      (scatter search rest).map fun (others, shards) =>
        (found :: others, { s with machine } :: shards)

/-- Search an engine. -/
def engineSearch (qsort : List (UnifiedSearchResult F) → List (UnifiedSearchResult F))
    (engine : UnifiedEngine F) (query : UnifiedQuery) (maxResults : ℕ) :
    Option (List (UnifiedSearchResult F) × UnifiedEngine F) :=
  (scatter (searchShard engine.params query) engine.shards).map fun (found, shards) =>
    ((fuseResults qsort query (found.flatMap Prod.fst) (found.flatMap Prod.snd)).take maxResults,
      { engine with shards })

end FtsUring
