import FtsUring.Engine.ScatterGather
import FtsUring.Foundation.WorkPool

/-!
# Searching the shards in a thread pool

The asynchronous search hands one piece of work for each shard to the thread pool of the event loop and waits
until the loop returns. The work of a shard fuses what its searches find; the results of all shards are taken
apart again, ranked, merged and sorted as in the synchronous search.

Every shard has its own pool, log and files, so the threads do not meet. The loop exists, and nothing else is
waiting in it. The work of shard `i` is the `i`-th one, and the shard has the id `i`, by which the loop finds the
counter of the calls that are over.
-/

namespace FtsUring

open Foundation

variable {F : Type} [Double F]

/-! ## The work of a shard -/

/-- Add a result for one term to those for the terms before. -/
def accumulateResult (results : List (UnifiedSearchResult F)) (result : UnifiedSearchResult F) :
    List (UnifiedSearchResult F) :=
  match results.findIdx? fun other => other.nodeId = result.nodeId with
  | some m => results.modify m fun other => { other with bm25fScore := other.bm25fScore + result.bm25fScore }
  | none => if results.length < maxResultsPerShard then results ++ [result] else results

/-- Search the terms one after the other. -/
def searchTerms (params : Bm25fParams F) (termIds : List UInt32) :
    PageProgram (List (UnifiedSearchResult F)) :=
  termIds.foldlM (fun results termId => do
    let found ← shardSearchBm25fIndexed termId params maxResultsPerShard
    return found.foldl accumulateResult results) []

/-- The text search of one shard. -/
def searchText (params : Bm25fParams F) (query : UnifiedQuery) :
    PageProgram (List (UnifiedSearchResult F)) :=
  if query.isPhrase ∧ 0 < query.termIds.length then
    shardSearchPhraseIndexed query.termIds params maxResultsPerShard
  else if 0 < query.termIds.length then searchTerms params query.termIds
  else shardSearchBm25fIndexed 0 params maxResultsPerShard

/-- A result of the text search with its rank and its share of the fused score. -/
def rankedText (i : ℕ) (result : UnifiedSearchResult F) : UnifiedSearchResult F :=
  { result with bm25fRank := UInt32.ofNat (i + 1), rrfScore := reciprocalRank (UInt32.ofNat (i + 1)) }

/-- Merge the next result of the vector search, which comes with its place. -/
def mergeRrfVector (merged : List (UnifiedSearchResult F)) (entry : UnifiedSearchResult F × ℕ) :
    List (UnifiedSearchResult F) :=
  let (result, i) := entry
  let rank := UInt32.ofNat (i + 1)
  match merged.findIdx? fun other => other.nodeId = result.nodeId with
  | some j => merged.modify j fun other =>
    { other with
      cosineScore := result.cosineScore
      cosineRank := rank
      rrfScore := other.rrfScore + reciprocalRank rank }
  | none => merged ++ [{ result with cosineRank := rank, rrfScore := reciprocalRank rank }]

/-- Fuse the results of the two searches of a shard. -/
def mergeRrf (bm25 vec : List (UnifiedSearchResult F)) (maxOut : ℕ) : List (UnifiedSearchResult F) :=
  (exchangeSort UnifiedSearchResult.rrfScore
    (vec.zipIdx.foldl mergeRrfVector (bm25.mapIdx rankedText))).take maxOut

/-- The work of one shard. -/
def shardSearchWorkCb (params : Bm25fParams F) (query : UnifiedQuery) :
    PageProgram (List (UnifiedSearchResult F)) := do
  let bm25 ← if query.useText then searchText params query else pure []
  let vec ← if query.useVector then shardSearchVector query.queryEmbedding maxResultsPerShard else pure []
  if query.useText ∧ query.useVector then return mergeRrf bm25 vec maxResultsPerShard
  else if query.useText then return bm25.map fun result => { result with rrfScore := result.bm25fScore }
  else return vec.map fun result => { result with rrfScore := result.cosineScore }

/-! ## The search -/

/-- A result of a shard counts as one of the text search. -/
def isTextResult (query : UnifiedQuery) (result : UnifiedSearchResult F) : Bool :=
  query.useText && decide (0 < result.bm25fScore)

/-- A result of a shard counts as one of the vector search. -/
def isVectorResult (query : UnifiedQuery) (result : UnifiedSearchResult F) : Bool :=
  !isTextResult query result && (query.useVector && (!(result.cosineScore == 0) || !query.useText))

/-- Take the results of the shards apart, and rank, merge and sort them. -/
def fuseGathered (qsort : List (UnifiedSearchResult F) → List (UnifiedSearchResult F)) (query : UnifiedQuery)
    (gathered : List (UnifiedSearchResult F)) : List (UnifiedSearchResult F) :=
  fuseResults qsort query (gathered.filter (isTextResult query)) (gathered.filter (isVectorResult query))

/-- The work of the shards is handed to the pool. -/
def queueShardWork (engine : UnifiedEngine F) (query : UnifiedQuery) :
    WorkPool pageLanguage Machine (List (UnifiedSearchResult F)) :=
  .queue (engine.shards.map fun s => (shardSearchWorkCb engine.params query, s.machine))

/-- Search an engine, with the threads in the order of the schedule. Nothing is returned when the schedule ends
before the loop does. -/
def engineSearchAsync (qsort : List (UnifiedSearchResult F) → List (UnifiedSearchResult F)) (threads : ℕ)
    (schedule : List ℕ) (engine : UnifiedEngine F) (query : UnifiedQuery) (maxResults : ℕ) :
    Option (List (UnifiedSearchResult F) × UnifiedEngine F) :=
  ((queueShardWork engine query).run poolHandler threads schedule).bind fun pool =>
    if pool.IsDone then
      some ((fuseGathered qsort query (pool.results.flatMap Prod.fst)).take maxResults,
        { engine with shards := engine.shards.zipWith (fun s r => { s with machine := r.2 }) pool.results })
    else none

/-! ## Every schedule -/

/-- Whatever the schedule, the search returns and has the answer. -/
structure ReturnsAsync (qsort : List (UnifiedSearchResult F) → List (UnifiedSearchResult F)) (threads : ℕ)
    (engine : UnifiedEngine F) (query : UnifiedQuery) (maxResults : ℕ)
    (answer : List (UnifiedSearchResult F) × UnifiedEngine F) : Prop where
  /-- The threads do not go on for ever. -/
  bounded : ∃ limit, ∀ schedule pool, (queueShardWork engine query).run poolHandler threads schedule =
    some pool → schedule.length ≤ limit
  /-- They do not get stuck before all shards are searched. -/
  continues : ∀ schedule pool, (queueShardWork engine query).run poolHandler threads schedule = some pool →
    pool.IsDone ∨ ∃ i, (pool.step poolHandler threads i).isSome
  /-- When all shards are searched, every shard was counted, and the answer is there. -/
  answers : ∀ schedule pool, (queueShardWork engine query).run poolHandler threads schedule = some pool →
    pool.IsDone → pool.completed = engine.shards.length ∧
      engineSearchAsync qsort threads schedule engine query maxResults = some answer

omit [Double F] in
/-- Scattering a search, shard by shard. -/
theorem scatter_eq_some_iff {α : Type} {search : PageProgram α} {shards shards' : List (EngineShard F)}
    {found : List α} : scatter search shards = some (found, shards') ↔
      ∃ results : List (α × Machine), results.map some =
          shards.map (fun s => poolHandler.exec search s.machine) ∧
        found = results.map Prod.fst ∧ shards' = shards.zipWith (fun s r => { s with machine := r.2 }) results := by
  induction shards generalizing found shards' with
  | nil =>
    rw [scatter, Option.some.injEq, Prod.mk.injEq]
    constructor
    · rintro ⟨rfl, rfl⟩
      exact ⟨[], rfl, rfl, rfl⟩
    · rintro ⟨results, hresults, rfl, rfl⟩
      rw [List.map_nil, List.map_eq_nil_iff] at hresults
      rw [hresults]
      exact ⟨rfl, rfl⟩
  | cons s shards ih =>
    rw [scatter, Option.bind_eq_some_iff]
    constructor
    · rintro ⟨⟨value, machine⟩, hexec, hrest⟩
      obtain ⟨⟨others, rest⟩, hscatter, hsame⟩ := Option.map_eq_some_iff.mp hrest
      obtain ⟨results, hresults, rfl, rfl⟩ := ih.mp hscatter
      cases hsame
      exact ⟨(value, machine) :: results, by rw [List.map_cons, List.map_cons, hexec, hresults], rfl, rfl⟩
    · rintro ⟨results, hresults, rfl, rfl⟩
      cases results with
      | nil => exact absurd hresults.symm (List.cons_ne_nil _ _)
      | cons r results =>
        rw [List.map_cons, List.map_cons, List.cons.injEq] at hresults
        refine ⟨r, hresults.1.symm, ?_⟩
        rw [ih.mpr ⟨results, hresults.2, rfl, rfl⟩]
        rfl

omit [Double F] in
/-- The shards can be searched one after the other when each of them can be searched. -/
theorem exists_scatter_of_isSome {α : Type} {search : PageProgram α} {shards : List (EngineShard F)}
    (hends : ∀ s ∈ shards, (poolHandler.exec search s.machine).isSome) :
    ∃ found shards', scatter search shards = some (found, shards') := by
  induction shards with
  | nil => exact ⟨[], [], rfl⟩
  | cons s shards ih =>
    obtain ⟨r, hr⟩ := Option.isSome_iff_exists.mp (hends s List.mem_cons_self)
    obtain ⟨found, shards', hscatter⟩ := ih fun other hother => hends other (List.mem_cons_of_mem _ hother)
    refine ⟨r.1 :: found, { s with machine := r.2 } :: shards', ?_⟩
    rw [scatter, hr, Option.bind_some, hscatter]
    rfl

omit [Double F] in
/-- Each shard can be searched when they can be searched one after the other. -/
theorem isSome_exec_of_scatter {α : Type} {search : PageProgram α} {shards shards' : List (EngineShard F)}
    {found : List α} (hscatter : scatter search shards = some (found, shards')) :
    ∀ s ∈ shards, (poolHandler.exec search s.machine).isSome := by
  intro s hs
  obtain ⟨results, hresults, -, -⟩ := scatter_eq_some_iff.mp hscatter
  have hmem : poolHandler.exec search s.machine ∈ results.map some := hresults ▸ List.mem_map_of_mem hs
  obtain ⟨r, -, hr⟩ := List.mem_map.mp hmem
  rw [← hr]
  rfl

omit [Double F] in
/-- Searching changes no member of a shard. -/
theorem map_shard_scatter {α : Type} {search : PageProgram α} {shards shards' : List (EngineShard F)}
    {found : List α}
    (hscatter : scatter search shards = some (found, shards')) :
    shards'.map EngineShard.shard = shards.map EngineShard.shard := by
  obtain ⟨results, hresults, -, rfl⟩ := scatter_eq_some_iff.mp hscatter
  have hlength : results.length = shards.length := by
    have hlengths := congrArg List.length hresults
    rwa [List.length_map, List.length_map] at hlengths
  apply List.ext_getElem?
  intro i
  rw [List.getElem?_map, List.getElem?_map, List.getElem?_zipWith]
  by_cases hi : i < shards.length
  · rw [List.getElem?_eq_getElem hi, List.getElem?_eq_getElem (hlength.symm ▸ hi)]
    rfl
  · rw [List.getElem?_eq_none (not_lt.mp hi)]

/-- The asynchronous search returns the same under every schedule, namely what the shards find one after the
other. -/
theorem returnsAsync_of_scatter (qsort : List (UnifiedSearchResult F) → List (UnifiedSearchResult F))
    {threads : ℕ} (hthreads : 0 < threads) {engine : UnifiedEngine F} {query : UnifiedQuery}
    {found : List (List (UnifiedSearchResult F))} {shards' : List (EngineShard F)}
    (hscatter : scatter (shardSearchWorkCb engine.params query) engine.shards = some (found, shards'))
    (maxResults : ℕ) : ReturnsAsync qsort threads engine query maxResults
      ((fuseGathered qsort query found.flatten).take maxResults, { engine with shards := shards' }) := by
  obtain ⟨results, hresults, rfl, rfl⟩ := scatter_eq_some_iff.mp hscatter
  have hends : ∀ piece ∈ engine.shards.map fun s => (shardSearchWorkCb engine.params query, s.machine),
      (poolHandler.exec piece.1 piece.2).isSome := by
    intro piece hpiece
    obtain ⟨s, hs, rfl⟩ := List.mem_map.mp hpiece
    exact isSome_exec_of_scatter hscatter s hs
  refine ⟨⟨_, fun schedule pool hrun => (WorkPool.run_queue_progress hthreads hends hrun).1⟩,
    fun schedule pool hrun => (WorkPool.run_queue_progress hthreads hends hrun).2, ?_⟩
  intro schedule pool hrun hdone
  obtain ⟨hvalues, hcompleted⟩ := WorkPool.run_queue hrun hdone
  rw [List.map_map] at hvalues
  have hsame : pool.results = results :=
    List.map_injective_iff.mpr (Option.some_injective _) (hvalues.trans hresults.symm)
  refine ⟨hcompleted.trans (List.length_map _), ?_⟩
  rw [engineSearchAsync, hrun, Option.bind_some, if_pos hdone, hsame, List.flatMap_def]

/-- When every shard alone can be searched, the asynchronous search returns for any number of threads under every
schedule, and the answer and the shards afterwards are those of searching one shard after the other. -/
theorem returnsAsync_scatter (qsort : List (UnifiedSearchResult F) → List (UnifiedSearchResult F))
    {engine : UnifiedEngine F} {query : UnifiedQuery}
    (hends : ∀ s ∈ engine.shards, (poolHandler.exec (shardSearchWorkCb engine.params query) s.machine).isSome)
    (maxResults : ℕ) : ∃ found shards',
      scatter (shardSearchWorkCb engine.params query) engine.shards = some (found, shards') ∧
        ∀ threads, 0 < threads → ReturnsAsync qsort threads engine query maxResults
          ((fuseGathered qsort query found.flatten).take maxResults, { engine with shards := shards' }) := by
  obtain ⟨found, shards', hscatter⟩ := exists_scatter_of_isSome hends
  exact ⟨found, shards', hscatter, fun _ hthreads => returnsAsync_of_scatter qsort hthreads hscatter maxResults⟩

/-- A search that returns has the answer that every schedule has. -/
theorem eq_of_returnsAsync {qsort : List (UnifiedSearchResult F) → List (UnifiedSearchResult F)}
    {engine : UnifiedEngine F} {query : UnifiedQuery} {maxResults threads : ℕ} {schedule : List ℕ}
    {answer other : List (UnifiedSearchResult F) × UnifiedEngine F}
    (hreturns : ∀ threads, 0 < threads → ReturnsAsync qsort threads engine query maxResults answer)
    (hother : engineSearchAsync qsort threads schedule engine query maxResults = some other) : other = answer := by
  obtain ⟨pool, hrun, hdone⟩ := Option.bind_eq_some_iff.mp hother
  split_ifs at hdone with hisDone
  have hmore := WorkPool.run_of_le (Nat.le_succ threads) hrun
  obtain ⟨-, hanswer⟩ := (hreturns _ threads.succ_pos).answers schedule pool hmore hisDone
  rw [engineSearchAsync, hmore, Option.bind_some, if_pos hisDone, hdone] at hanswer
  exact Option.some.inj hanswer

/-- Some schedule leads to the answer. -/
theorem ReturnsAsync.exists_schedule {qsort : List (UnifiedSearchResult F) → List (UnifiedSearchResult F)}
    {engine : UnifiedEngine F} {query : UnifiedQuery} {maxResults threads : ℕ}
    {answer : List (UnifiedSearchResult F) × UnifiedEngine F}
    (h : ReturnsAsync qsort threads engine query maxResults answer) :
    ∃ schedule, engineSearchAsync qsort threads schedule engine query maxResults = some answer := by
  obtain ⟨limit, hbounded⟩ := h.bounded
  obtain ⟨schedule, pool, hrun, hdone⟩ := WorkPool.exists_run_isDone hbounded h.continues
  exact ⟨schedule, (h.answers schedule pool hrun hdone).2⟩

/-! ## Vector searches -/

/-- A result without its fused score. -/
def UnifiedSearchResult.unfused (result : UnifiedSearchResult F) : UnifiedSearchResult F :=
  { result with rrfScore := 0 }

/-- Merging does not look at the fused scores. -/
theorem map_unfused_mergeVector (merged : List (UnifiedSearchResult F)) (result : UnifiedSearchResult F) :
    (mergeVector merged result).map UnifiedSearchResult.unfused =
      mergeVector (merged.map UnifiedSearchResult.unfused) result.unfused := by
  have hfind : (merged.map UnifiedSearchResult.unfused).findIdx?
      (fun other => other.nodeId = result.unfused.nodeId) =
        merged.findIdx? fun other => other.nodeId = result.nodeId := by
    rw [List.findIdx?_map]
    rfl
  rw [mergeVector, mergeVector, hfind]
  cases merged.findIdx? fun other => other.nodeId = result.nodeId with
  | none => simp
  | some j =>
    apply List.ext_getElem?
    intro i
    dsimp only
    rw [List.getElem?_map, List.getElem?_modify, List.getElem?_modify, List.getElem?_map]
    by_cases hij : j = i
    · simp only [hij, if_true]
      cases merged[i]? <;> rfl
    · simp [hij]

/-- Merging many results does not look at them either. -/
theorem map_unfused_foldl_mergeVector (results merged : List (UnifiedSearchResult F)) :
    (results.foldl mergeVector merged).map UnifiedSearchResult.unfused =
      (results.map UnifiedSearchResult.unfused).foldl mergeVector (merged.map UnifiedSearchResult.unfused) := by
  induction results generalizing merged with
  | nil => rfl
  | cons result results ih => rw [List.foldl_cons, ih, map_unfused_mergeVector, List.map_cons, List.foldl_cons]

/-- A vector search ranks and merges without a look at the fused scores. -/
theorem map_unfused_fuseResults (qsort : List (UnifiedSearchResult F) → List (UnifiedSearchResult F))
    {query : UnifiedQuery} (htext : query.useText = false) (hvector : query.useVector = true)
    (vectorAll : List (UnifiedSearchResult F)) :
    (fuseResults qsort query [] vectorAll).map UnifiedSearchResult.unfused =
      fuseResults qsort query [] (vectorAll.map UnifiedSearchResult.unfused) := by
  have hsorted : ∀ results : List (UnifiedSearchResult F),
      (exchangeSort UnifiedSearchResult.cosineScore results).map UnifiedSearchResult.unfused =
        exchangeSort UnifiedSearchResult.cosineScore (results.map UnifiedSearchResult.unfused) :=
    fun results =>
      (@exchangeSort_map _ _ _ _ UnifiedSearchResult.cosineScore _ UnifiedSearchResult.unfused results).symm
  have hranked : (rankVector vectorAll).map UnifiedSearchResult.unfused =
      rankVector (vectorAll.map UnifiedSearchResult.unfused) := by
    rw [rankVector, rankVector, ← hsorted]
    apply List.ext_getElem?
    intro i
    simp only [List.getElem?_map, List.getElem?_mapIdx, Option.map_map]
    rfl
  simp only [fuseResults, htext, hvector, if_true, Bool.false_eq_true, false_and, if_false]
  rw [hsorted, map_unfused_foldl_mergeVector, hranked, List.map_nil]

omit [Double F] in
/-- Scattering a search whose results are those of another one, changed. -/
theorem scatter_map {α β : Type} {search : PageProgram α} {other : PageProgram β} {change : α → β}
    (h : other = change <$> search) {shards shards' : List (EngineShard F)} {found : List α}
    (hscatter : scatter search shards = some (found, shards')) :
    scatter other shards = some (found.map change, shards') := by
  obtain ⟨results, hresults, rfl, rfl⟩ := scatter_eq_some_iff.mp hscatter
  refine scatter_eq_some_iff.mpr ⟨results.map fun r => (change r.1, r.2), ?_, ?_, ?_⟩
  · have hother : ∀ m, poolHandler.exec other m =
        (poolHandler.exec search m).map fun r => (change r.1, r.2) := by
      intro m
      rw [h, map_eq_pure_bind, Handler.exec_bind]
      cases poolHandler.exec search m <;> rfl
    have hmapped := congrArg (List.map (Option.map fun r : α × Machine => (change r.1, r.2))) hresults
    rw [List.map_map, List.map_map] at hmapped
    rw [List.map_map]
    exact hmapped.trans (List.map_congr_left fun s _ => (hother s.machine).symm)
  · rw [List.map_map, List.map_map]
    rfl
  · rw [List.zipWith_map_right]

/-- The work of a shard for a vector search. -/
theorem shardSearchWorkCb_vector {query : UnifiedQuery} (htext : query.useText = false)
    (hvector : query.useVector = true) (params : Bm25fParams F) :
    shardSearchWorkCb params query =
      (fun found => found.2.map fun result => { result with rrfScore := result.cosineScore }) <$>
        searchShard params query := by
  simp only [shardSearchWorkCb, searchShard, htext, hvector, if_true, Bool.false_eq_true, false_and, if_false,
    pure_bind, map_eq_pure_bind, bind_assoc]

/-- A vector search has the same answers in both ways, but for the fused scores: the same nodes with the same
scores and ranks in the same order. The pages and the files of the shards are the same afterwards. -/
theorem engineSearchAsync_vector {qsort : List (UnifiedSearchResult F) → List (UnifiedSearchResult F)}
    {threads : ℕ} (hthreads : 0 < threads) {engine engine' : UnifiedEngine F} {query : UnifiedQuery}
    (htext : query.useText = false) (hvector : query.useVector = true) {maxResults : ℕ}
    {results : List (UnifiedSearchResult F)}
    (hsearch : engineSearch qsort engine query maxResults = some (results, engine')) :
    ∃ results', ReturnsAsync qsort threads engine query maxResults (results', engine') ∧
      results'.map UnifiedSearchResult.unfused = results.map UnifiedSearchResult.unfused := by
  obtain ⟨⟨found, shards'⟩, hscatter, hanswer⟩ := Option.map_eq_some_iff.mp hsearch
  cases hanswer
  refine ⟨_, returnsAsync_of_scatter qsort hthreads
    (scatter_map (shardSearchWorkCb_vector htext hvector engine.params) hscatter) maxResults, ?_⟩
  -- all results count as results of the vector search
  have hnone : ∀ gathered : List (UnifiedSearchResult F), gathered.filter (isTextResult query) = [] := by
    intro gathered
    rw [List.filter_eq_nil_iff]
    intro result _ htextResult
    rw [isTextResult, htext, Bool.false_and] at htextResult
    exact Bool.false_ne_true htextResult
  have hall : ∀ gathered : List (UnifiedSearchResult F), gathered.filter (isVectorResult query) = gathered := by
    intro gathered
    rw [List.filter_eq_self]
    intro result _
    rw [isVectorResult, isTextResult, htext, hvector, Bool.false_and, Bool.not_false, Bool.or_true]
    rfl
  have hfst : found.flatMap Prod.fst = [] := by
    obtain ⟨rs, hrs, rfl, -⟩ := scatter_eq_some_iff.mp hscatter
    rw [List.flatMap_eq_nil_iff]
    intro pair hpair
    obtain ⟨r, hr, rfl⟩ := List.mem_map.mp hpair
    have hexec : some r ∈ rs.map some := List.mem_map_of_mem hr
    rw [hrs] at hexec
    obtain ⟨s, -, hs⟩ := List.mem_map.mp hexec
    have hyields : (searchShard engine.params query).Yields fun pair => pair.1 = [] := by
      rw [searchShard, htext, hvector]
      simp only [Bool.false_eq_true, if_true, if_false, pure_bind]
      exact Program.Yields.bind _ fun _ => Program.Yields.pure rfl
    exact hyields.exec (show poolHandler.exec _ _ = some (r.1, r.2) from hs)
  rw [fuseGathered, hnone, hall, hfst, List.map_take, List.map_take, map_unfused_fuseResults qsort htext hvector,
    map_unfused_fuseResults qsort htext hvector, List.map_flatten, List.map_map, List.flatMap_def,
    List.map_flatten, List.map_map]
  congr 3
  apply List.map_congr_left
  intro pair _
  rw [Function.comp_apply, Function.comp_apply, List.map_map]
  rfl

/-- There is an engine with two shards that answers a vector query. -/
theorem exists_engine_vectorQuery : ∃ engine engine' : UnifiedEngine ℚ, ∃ results, engine.shards.length = 2 ∧
    engineSearch id engine vectorQuery 10 = some (results, engine') := by
  have hshort : ∀ updates ∈ [[ShardUpdate.insert (.ofTerms 1 1 [7] (by decide))],
      [.insert (.ofTerms 2 3 [9, 7] (by decide))]], ∀ doc ∈ insertedDocuments updates, doc.NoRecordSlots := by
    decide
  obtain ⟨engine, hran, -⟩ := @exists_engine_ran [[.insert (.ofTerms 1 1 [7] (by decide))],
    [.insert (.ofTerms 2 3 [9, 7] (by decide))]] (by decide) hshort
  obtain ⟨results, engine', hsearch, -⟩ := engineSearch_sole (linearOn_rat fun _ => True) hran
    (by decide : vectorQuery.useText ≠ vectorQuery.useVector) hshort (fun _ _ => trivial) id 10
  exact ⟨engine, engine', results, hran.length_eq, hsearch⟩

/-- Any number of threads on two shards return what the shards find one after the other. -/
theorem returnsAsync_scatter_two_shards : ∃ engine : UnifiedEngine ℚ, ∃ found shards',
    engine.shards.length = 2 ∧
    scatter (shardSearchWorkCb engine.params vectorQuery) engine.shards = some (found, shards') ∧
      ∀ threads, 0 < threads → ReturnsAsync id threads engine vectorQuery 10
        ((fuseGathered id vectorQuery found.flatten).take 10, { engine with shards := shards' }) := by
  obtain ⟨engine, engine', results, hlength, hsearch⟩ := exists_engine_vectorQuery
  obtain ⟨⟨found, shards'⟩, hscatter, -⟩ := Option.map_eq_some_iff.mp hsearch
  have hwork := scatter_map (shardSearchWorkCb_vector rfl rfl engine.params) hscatter
  obtain ⟨found, shards', hsequential, hreturns⟩ := returnsAsync_scatter id (isSome_exec_of_scatter hwork) 10
  exact ⟨engine, found, shards', hlength, hsequential, hreturns⟩

/-- Four threads on two shards answer a vector query as the synchronous search does. -/
theorem engineSearchAsync_vector_two_shards : ∃ engine engine' : UnifiedEngine ℚ, ∃ results results',
    engine.shards.length = 2 ∧ engineSearch id engine vectorQuery 10 = some (results, engine') ∧
      ReturnsAsync id 4 engine vectorQuery 10 (results', engine') ∧
        results'.map UnifiedSearchResult.unfused = results.map UnifiedSearchResult.unfused := by
  obtain ⟨engine, engine', results, hlength, hsearch⟩ := exists_engine_vectorQuery
  obtain ⟨results', hreturns, hsame⟩ := engineSearchAsync_vector (by decide : 0 < 4) rfl rfl hsearch
  exact ⟨engine, engine', results, results', hlength, hsearch, hreturns, hsame⟩

end FtsUring
