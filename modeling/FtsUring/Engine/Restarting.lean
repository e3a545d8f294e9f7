import FtsUring.Engine.AsyncText
import FtsUring.Search.Reopening

/-!
# Closing an engine and opening it again

Closing an engine closes its shards one after the other. When the files are opened again, every shard has its
documents and its members back, as long as no posting page behind its active data page looks like a data page. The
parameters of the scores are then those of all documents that were inserted until the engine was closed.
-/

namespace FtsUring

open Foundation

variable {F : Type} [Double F]

/-! ## Closing -/

omit [Double F] in
/-- The files of a shard that was closed, with the descriptors under which they are opened the next time. -/
def EngineShard.close (s : EngineShard F) (descriptors : ℤ × ℤ) : ShardFiles F where
  host := (shardCloseWithPath s.shard s.machine).2
  dataFd := descriptors.1
  walFd := descriptors.2
  saved := some (shardCloseWithPath s.shard s.machine).1

/-- `engine_close`: the files that it leaves. -/
def engineClose (engine : UnifiedEngine F) (descriptors : List (ℤ × ℤ)) : List (ShardFiles F) :=
  engine.shards.zipWith EngineShard.close descriptors

/-! ## Opening -/

/-- The active page is found again when no data page has an id that is taken for the type of a data page. -/
theorem ShardView.keepsActivePage_of_ids {view : ShardView} (haddressed : view.Addressed)
    (hids : ∀ id ∈ view.data.ids, id % 2 ^ 16 ≠ PageType.vectorData.code) : view.KeepsActivePage := by
  intro pageId _ hposes
  obtain ⟨termId, items, hmem, first, hfirst, hcode⟩ := hposes
  have hposting : first ∈ (view.postings termId).contents :=
    List.mem_flatMap.mpr ⟨_, hmem, List.mem_of_mem_head? hfirst⟩
  have hrecord := haddressed termId first hposting
  refine hids first.dataPageId ?_ hcode
  by_contra hnot
  rw [recordOf, PageChain.itemsAt_eq_nil hnot] at hrecord
  exact Bool.false_ne_true hrecord

/-- This is so in a shard with fewer than seven pages. -/
theorem SmallShard.keepsActivePage {updates : List ShardUpdate} (h : SmallShard updates)
    (hfew : (ShardView.fresh.updates updates).nextPageId ≤ PageType.vectorData.code) :
    (ShardView.fresh.updates updates).KeepsActivePage := by
  have hindexed := Indexed.fresh.updates ShardView.valid_fresh h.fits.le
  have hvalid := ShardView.valid_fresh.updates h.fits.le
  refine ShardView.keepsActivePage_of_ids (hindexed.addressed hvalid) fun id hid => ?_
  have hlt := (hvalid.owned.bound .data id hid).trans_le hfew
  exact ((Nat.mod_le _ _).trans_lt hlt).ne

/-- A shard that was closed is opened again. -/
theorem openShard_close {s : EngineShard F} {updates : List ShardUpdate} (hs : s.HoldsAfter updates)
    (hkeeps : (ShardView.fresh.updates updates).KeepsActivePage) {descriptors : ℤ × ℤ}
    (hopens : 0 ≤ descriptors.1 ∧ 0 ≤ descriptors.2) {poolSize : ℕ} (hroom : 2 ≤ poolSize)
    (hsmall : poolSize < 2 ^ 31) : ∃ machine, openShard (s.close descriptors) poolSize =
      some (some ⟨s.shard, machine⟩) ∧ EngineShard.HoldsAfter ⟨s.shard, machine⟩ updates := by
  obtain ⟨⟨pages, hm, hpages⟩, hmatches⟩ := hs
  set host := (shardCloseWithPath s.shard s.machine).2 with hhost
  have hwal : walInit host descriptors.2 = (0, ⟨descriptors.2, UInt64.ofNat host.walFile.length⟩) := by
    rw [walInit, if_neg (not_lt.mpr hopens.2)]
  obtain ⟨machine, pages', hexec, hmachine, hpages', -⟩ := exec_reopen hpages hm s.shard
    ⟨hopens.1, hroom, hsmall, (by decide : 0 < 2 ^ 32)⟩ ⟨descriptors.2, UInt64.ofNat host.walFile.length⟩
  rw [← hhost] at hexec
  have hactive := hpages.rediscoveredPage_eq_iff.mpr hkeeps
  have hsame : { s.shard with activeDataPageId := (ShardView.fresh.updates updates).rediscoveredPage } = s.shard := by
    rw [hactive, ← hmatches.activePage]
  rw [hsame] at hexec
  refine ⟨machine, ?_, ⟨pages', hmachine, hpages'⟩, hmatches⟩
  rw [openShard]
  simp only [EngineShard.close, if_neg (not_lt.mpr hopens.1), ← hhost, hwal, ne_eq, not_true_eq_false, if_false]
  rw [hexec]
  rfl

/-- All shards are opened again. -/
theorem openShards_close {shards : List (EngineShard F)} {distribution : List (List ShardUpdate)}
    (hshards : List.Forall₂ EngineShard.HoldsAfter shards distribution)
    (hkeeps : ∀ updates ∈ distribution, (ShardView.fresh.updates updates).KeepsActivePage)
    {descriptors : List (ℤ × ℤ)} (hlength : descriptors.length = shards.length)
    (hopens : ∀ fds ∈ descriptors, 0 ≤ fds.1 ∧ 0 ≤ fds.2) {poolSize : ℕ} (hroom : 2 ≤ poolSize)
    (hsmall : poolSize < 2 ^ 31) : ∃ opened : List (EngineShard F),
      openShards poolSize (shards.zipWith EngineShard.close descriptors) = some (some opened) ∧
      List.Forall₂ EngineShard.HoldsAfter opened distribution ∧
      opened.map EngineShard.shard = shards.map EngineShard.shard := by
  induction hshards generalizing descriptors with
  | nil => exact ⟨[], by rw [List.zipWith_nil_left, openShards], .nil, rfl⟩
  | @cons s updates shards distribution hs _ ih =>
    cases descriptors with
    | nil => exact absurd hlength (Nat.succ_ne_zero _).symm
    | cons fds descriptors =>
      obtain ⟨machine, hopen, hholds⟩ := openShard_close hs (hkeeps updates List.mem_cons_self)
        (hopens fds List.mem_cons_self) hroom hsmall
      obtain ⟨opened, hopened, hrest, hmembers⟩ := ih
        (fun others hothers => hkeeps others (List.mem_cons_of_mem _ hothers)) (Nat.succ.inj hlength)
        fun other hother => hopens other (List.mem_cons_of_mem _ hother)
      refine ⟨⟨s.shard, machine⟩ :: opened, ?_, .cons hholds hrest, by rw [List.map_cons, hmembers]; rfl⟩
      rw [List.zipWith_cons_cons, openShards, hopen, Option.bind_some]
      dsimp only
      rw [hopened]
      rfl

/-! ## Statistics -/

/-- The sum of the lengths of a field in documents. -/
def fieldTotal (i : Fin maxFtsFields) (docs : List Document) : F :=
  docs.foldl (fun sum doc => sum + Double.ofUInt32 (doc.dl.get i)) 0

/-- The average length of a field, when documents are dealt out to shards. -/
def averageLength (parts : List (List Document)) (i : Fin maxFtsFields) : F :=
  let count := UInt64.ofNat parts.flatten.length
  if 0 < count then parts.foldl (fun sum part => sum + fieldTotal i part) 0 / Double.ofUInt64 count
  else Double.ofUInt32 10

/-- The parameters with which an engine scores after it was opened with some documents. -/
def openedParams (numShards : ℕ) (docs : List Document) : Bm25fParams F :=
  { newEngineParams with
    avgdl := Vector.ofFn (averageLength ((routed numShards docs).map insertedDocuments)) }

/-- The members of a shard count documents. -/
structure Shard.Counts (shard : Shard F) (updates : List ShardUpdate) : Prop where
  total : shard.totalDocs = UInt32.ofNat (insertedDocuments updates).length
  lengths : ∀ i, shard.sumDl.get i = fieldTotal i (insertedDocuments updates)

/-- A new shard counts none. -/
theorem Shard.counts_initial : (Shard.initial : Shard F).Counts [] :=
  ⟨rfl, fun i => Vector.getElem_replicate i.isLt⟩

/-- A document more is counted. -/
theorem Shard.Counts.afterInsert {shard : Shard F} {updates : List ShardUpdate} (h : shard.Counts updates)
    (doc : Document) (view : ShardView) : (shard.afterInsert doc view).Counts (updates ++ [.insert doc]) := by
  have hdocs : insertedDocuments (updates ++ [.insert doc]) = insertedDocuments updates ++ [doc] := by
    rw [insertedDocuments, List.filterMap_append]
    rfl
  constructor
  · rw [hdocs, List.length_append, List.length_singleton, UInt32.ofNat_add, ← h.total]
    rfl
  · intro i
    have hsum : (shard.afterInsert doc view).sumDl.get i = shard.sumDl.get i + Double.ofUInt32 (doc.dl.get i) :=
      Vector.getElem_ofFn i.isLt
    rw [hsum, h.lengths, hdocs, fieldTotal, fieldTotal, List.foldl_append]
    rfl

/-- The shards of a new engine count nothing. -/
theorem counts_new {shards : List (EngineShard F)} (hinitial : ∀ s ∈ shards, s.shard = Shard.initial) :
    List.Forall₂ Shard.Counts (shards.map EngineShard.shard) (routed shards.length []) := by
  rw [routed_nil]
  induction shards with
  | nil => exact .nil
  | cons s shards ih =>
    refine .cons ?_ (ih fun other hother => hinitial other (List.mem_cons_of_mem _ hother))
    rw [hinitial s List.mem_cons_self]
    exact Shard.counts_initial

/-- The shards count a document more. -/
theorem counts_set {shards : List (EngineShard F)} {numShards : ℕ} {docs : List Document} {doc : Document}
    (hcounts : List.Forall₂ Shard.Counts (shards.map EngineShard.shard) (routed numShards docs))
    {s s' : EngineShard F} (hs : shards[shardIndex doc.nodeId numShards]? = some s) {view : ShardView}
    (hmembers : s'.shard = s.shard.afterInsert doc view) :
    List.Forall₂ Shard.Counts ((shards.set (shardIndex doc.nodeId numShards) s').map EngineShard.shard)
      (routed numShards (docs ++ [doc])) := by
  have hlt : shardIndex doc.nodeId numShards < (shards.map EngineShard.shard).length := by
    rw [List.length_map]
    exact (List.getElem?_eq_some_iff.mp hs).1
  obtain ⟨shard, updates, hshard, -, hold, hset⟩ := exists_forall₂_set hcounts hlt
  rw [List.getElem?_map, hs, Option.map_some, Option.some.injEq] at hshard
  rw [List.map_set, routed_concat, hmembers, hshard]
  exact hset _ (· ++ [.insert doc]) (hold.afterInsert doc view)

section Averages

variable {shards : List (EngineShard F)} {distribution : List (List ShardUpdate)}

/-- The number of documents in all shards. -/
theorem totalDocs_of_counts (hcounts : List.Forall₂ Shard.Counts (shards.map EngineShard.shard) distribution)
    (hsmall : ∀ updates ∈ distribution, SmallShard updates) :
    totalDocs shards = UInt64.ofNat (distribution.map insertedDocuments).flatten.length := by
  have hfrom : ∀ start, shards.foldl (fun total s => total + s.shard.totalDocs.toUInt64) start =
      start + UInt64.ofNat (distribution.map insertedDocuments).flatten.length := by
    induction shards generalizing distribution with
    | nil =>
      cases hcounts
      exact fun start => (UInt64.add_zero start).symm
    | cons s shards ih =>
      intro start
      cases hcounts with
      | @cons _ updates _ distribution hs hrest =>
        have hfew : (insertedDocuments updates).length < 2 ^ 32 :=
          (hsmall updates List.mem_cons_self).few.trans_lt (by decide)
        have hone : s.shard.totalDocs.toUInt64 = UInt64.ofNat (insertedDocuments updates).length := by
          apply UInt64.toNat_inj.mp
          rw [hs.total, UInt32.toNat_toUInt64, UInt32.toNat_ofNat', UInt64.toNat_ofNat', Nat.mod_eq_of_lt hfew,
            Nat.mod_eq_of_lt (hfew.trans (by decide))]
        rw [List.foldl_cons, ih hrest fun others hothers => hsmall others (List.mem_cons_of_mem _ hothers), hone,
          List.map_cons, List.flatten_cons, List.length_append, UInt64.ofNat_add, UInt64.add_assoc]
  exact (hfrom 0).trans (UInt64.zero_add _)

/-- The length of a field in all shards. -/
theorem totalDl_of_counts (hcounts : List.Forall₂ Shard.Counts (shards.map EngineShard.shard) distribution)
    (i : Fin maxFtsFields) : totalDl shards i =
      (distribution.map insertedDocuments).foldl (fun sum part => sum + fieldTotal i part) 0 := by
  have hfrom : ∀ start, shards.foldl (fun sum s => sum + s.shard.sumDl.get i) start =
      (distribution.map insertedDocuments).foldl (fun sum part => sum + fieldTotal i part) start := by
    induction shards generalizing distribution with
    | nil =>
      cases hcounts
      exact fun _ => rfl
    | cons s shards ih =>
      intro start
      cases hcounts with
      | cons hs hrest => rw [List.foldl_cons, ih hrest, List.map_cons, List.foldl_cons, hs.lengths]
  exact hfrom 0

/-- The average length of a field in all shards. -/
theorem averageDl_of_counts (hcounts : List.Forall₂ Shard.Counts (shards.map EngineShard.shard) distribution)
    (hsmall : ∀ updates ∈ distribution, SmallShard updates) :
    averageDl shards = averageLength (distribution.map insertedDocuments) := by
  funext i
  rw [averageDl, averageLength, totalDocs_of_counts hcounts hsmall, totalDl_of_counts hcounts]

end Averages

/-- Before the first document the parameters are those of a new engine. -/
theorem openedParams_nil (numShards : ℕ) : (openedParams numShards [] : Bm25fParams F) = newEngineParams := by
  have hnone : ((routed numShards []).map insertedDocuments).flatten = [] := by
    rw [routed_nil, List.map_replicate]
    exact List.flatten_replicate_nil
  have haverage : ∀ i, (averageLength ((routed numShards []).map insertedDocuments) i : F) = Double.ofUInt32 10 := by
    intro i
    rw [averageLength, hnone]
    rfl
  rw [openedParams, funext haverage]
  congr 1

/-- An engine that was closed is opened again. -/
theorem engineInit_engineClose {engine : UnifiedEngine F} {docs : List Document} (hshards : engine.shards ≠ [])
    (hholds : List.Forall₂ EngineShard.HoldsAfter engine.shards (routed engine.shards.length docs))
    (hcounts : List.Forall₂ Shard.Counts (engine.shards.map EngineShard.shard) (routed engine.shards.length docs))
    (hsmall : ∀ updates ∈ routed engine.shards.length docs, SmallShard updates)
    (hkeeps : ∀ updates ∈ routed engine.shards.length docs, (ShardView.fresh.updates updates).KeepsActivePage)
    {descriptors : List (ℤ × ℤ)} (hlength : descriptors.length = engine.shards.length)
    (hopens : ∀ fds ∈ descriptors, 0 ≤ fds.1 ∧ 0 ≤ fds.2) {maxRamMb : UInt32}
    (hframes : framesPerShard maxRamMb engine.shards.length < 2 ^ 31) :
    ∃ opened : UnifiedEngine F, engineInit (engineClose engine descriptors) maxRamMb = some (some opened) ∧
      List.Forall₂ EngineShard.HoldsAfter opened.shards (routed engine.shards.length docs) ∧
      opened.shards.map EngineShard.shard = engine.shards.map EngineShard.shard ∧
      opened.params = openedParams engine.shards.length docs := by
  have hroom : 2 ≤ framesPerShard maxRamMb engine.shards.length := le_max_of_le_left (by decide)
  have hfiles : (engineClose engine descriptors).length = engine.shards.length := by
    rw [engineClose, List.length_zipWith, hlength, min_self]
  obtain ⟨shards, hopened, hagain, hmembers⟩ := openShards_close hholds hkeeps hlength hopens hroom hframes
  refine ⟨engineRecomputeGlobalStats
    ⟨shards, 0, Vector.replicate maxFtsFields 0, newEngineParams.weights, newEngineParams.k1, newEngineParams.b⟩,
      ?_, hagain, hmembers, ?_⟩
  · rw [engineInit, if_neg (by rw [hfiles]; exact mt List.length_eq_zero_iff.mp hshards), hfiles, engineClose, hopened,
      weights_newEngineParams]
    rfl
  · rw [← hmembers] at hcounts
    simp only [UnifiedEngine.params, engineRecomputeGlobalStats, averageDl_of_counts hcounts hsmall]
    rfl

end FtsUring
